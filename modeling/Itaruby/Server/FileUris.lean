import Itaruby.Library.Utf8
import Mathlib.Logic.Function.Basic

/-!
`file://` URIs of paths: the escapes of a path, and how they are read back.
-/

set_option autoImplicit false
set_option relaxedAutoImplicit false

namespace Itaruby.Server

/-! ### Escapes -/

/-- The characters that stand for themselves in the path of a URI. -/
def isPathChar (c : Char) : Bool :=
  c.isAlphanum || "-_.~/:@!$&'()*+,;=".toList.contains c

/-- `{:X}` of a digit -/
def hexDigit (n : ℕ) : Char :=
  if n < 10 then Char.ofNat ('0'.toNat + n) else Char.ofNat ('A'.toNat + (n - 10))

def encodeByte (b : UInt8) : List Char :=
  let c := Char.ofNat b.toNat
  if isPathChar c then [c] else ['%', hexDigit (b.toNat / 16), hexDigit (b.toNat % 16)]

def percentEncodePath (s : List Char) : List Char := (Utf8.encode s).flatMap encodeByte

def hexValue (b : UInt8) : Option ℕ :=
  if 48 ≤ b && b ≤ 57 then some (b.toNat - 48)
  else if 65 ≤ b && b ≤ 70 then some (b.toNat - 55)
  else if 97 ≤ b && b ≤ 102 then some (b.toNat - 87)
  else none

/-- `u8::from_str_radix` of two bytes: a plus may stand before the digits. -/
def fromStrRadix16 (a b : UInt8) : Option UInt8 :=
  if a = 43 then (hexValue b).map Nat.toUInt8
  else (hexValue a).bind fun high ↦ (hexValue b).map fun low ↦ (high * 16 + low).toUInt8

/-- `none` is a panic, where the two bytes after a percent sign do not end with a character. -/
def decodeBytes : List UInt8 → Option (List UInt8)
  | [] => some []
  | 37 :: a :: b :: rest =>
    if rest.head?.any Utf8.isContinuation then none
    else
      match fromStrRadix16 a b with
      | some byte => (decodeBytes rest).map (byte :: ·)
      | none => (decodeBytes (a :: b :: rest)).map (37 :: ·)
  | c :: rest => (decodeBytes rest).map (c :: ·)

def percentDecode (s : List Char) : Option (List Char) :=
  (decodeBytes (Utf8.encode s)).map Utf8.fromUtf8Lossy

/-! ### URIs -/

/-- What the server takes from the URI library. -/
structure UriLibrary where
  Uri : Type
  parse : List Char → Option Uri
  scheme : Uri → Option (List Char)
  path : Uri → List Char

namespace UriLibrary

variable (lib : UriLibrary)

def pathToUri (path : List Char) : Option lib.Uri :=
  let encoded := percentEncodePath path
  if encoded.head? = some '/' then lib.parse ("file://".toList ++ encoded)
  else lib.parse ("file:///".toList ++ encoded)

/-- `none` is no path, `some none` a panic. -/
def uriToPath (uri : lib.Uri) : Option (Option (List Char)) :=
  (lib.scheme uri).bind fun scheme ↦
    if scheme.map Char.toLower = "file".toList then some (percentDecode (lib.path uri)) else none

end UriLibrary

/-! ### The text of a path -/

def isHexDigit (c : Char) : Bool := c.isDigit || ('A' ≤ c && c ≤ 'F')

/-- Path characters and well-formed escapes. -/
inductive PathText : List Char → Prop
  | nil : PathText []
  | plain (c : Char) (rest : List Char) : isPathChar c = true → PathText rest → PathText (c :: rest)
  | escape (high low : Char) (rest : List Char) : isHexDigit high = true → isHexDigit low = true →
      PathText rest → PathText ('%' :: high :: low :: rest)

theorem pathChar_bounds : ∀ n < 256, isPathChar (Char.ofNat n) = true → n < 0x80 ∧ n ≠ 37 := by
  decide +kernel

theorem hexDigit_spec : ∀ n < 16, isHexDigit (hexDigit n) = true ∧ (hexDigit n).toNat < 0x80 ∧
    (hexDigit n).toNat ≠ 43 ∧ hexValue (hexDigit n).toNat.toUInt8 = some n := by
  decide +kernel

theorem toNat_ofByte (b : UInt8) : (Char.ofNat b.toNat).toNat = b.toNat := by
  have hvalid : b.toNat.isValidChar := .inl (by have hlt := b.toNat_lt; omega)
  rw [Char.ofNat, dif_pos hvalid]
  rfl

theorem encodeByte_pathText (b : UInt8) {rest : List Char} (h : PathText rest) :
    PathText (encodeByte b ++ rest) := by
  have hlt := b.toNat_lt
  unfold encodeByte
  by_cases hc : isPathChar (Char.ofNat b.toNat) = true
  · rw [if_pos hc]
    exact .plain _ _ hc h
  · rw [if_neg hc]
    exact .escape _ _ _ (hexDigit_spec _ (by omega)).1 (hexDigit_spec _ (by omega)).1 h

theorem percentEncodePath_pathText (s : List Char) : PathText (percentEncodePath s) := by
  unfold percentEncodePath
  induction Utf8.encode s with
  | nil => exact .nil
  | cons b bytes ih => exact encodeByte_pathText b ih

/-- The bytes of what is written for a byte. -/
theorem encode_encodeByte (b : UInt8) :
    (b.toNat < 0x80 ∧ b ≠ 37 ∧ Utf8.encode (encodeByte b) = [b]) ∨
      Utf8.encode (encodeByte b) = [37, (hexDigit (b.toNat / 16)).toNat.toUInt8,
        (hexDigit (b.toNat % 16)).toNat.toUInt8] := by
  have hlt := b.toNat_lt
  unfold encodeByte
  by_cases hc : isPathChar (Char.ofNat b.toNat) = true
  · obtain ⟨hascii, hne⟩ := pathChar_bounds b.toNat (by omega) hc
    refine .inl ⟨hascii, fun h ↦ hne (by rw [h]; rfl), ?_⟩
    rw [if_pos hc, Utf8.encode_cons, Utf8.utf8EncodeChar_ascii (by rwa [toNat_ofByte]),
      toNat_ofByte, Nat.toUInt8, UInt8.ofNat_toNat]
    rfl
  · have hhigh := (hexDigit_spec (b.toNat / 16) (by omega)).2.1
    have hlow := (hexDigit_spec (b.toNat % 16) (by omega)).2.1
    refine .inr ?_
    rw [if_neg hc, Utf8.encode_cons, Utf8.encode_cons, Utf8.encode_cons,
      Utf8.utf8EncodeChar_ascii hhigh, Utf8.utf8EncodeChar_ascii hlow]
    rfl

/-- The escape of a byte is read as the byte. -/
theorem fromStrRadix16_hexDigit (b : UInt8) :
    fromStrRadix16 (hexDigit (b.toNat / 16)).toNat.toUInt8 (hexDigit (b.toNat % 16)).toNat.toUInt8 =
      some b := by
  have hlt := b.toNat_lt
  obtain ⟨-, hascii, hplus, hhigh⟩ := hexDigit_spec (b.toNat / 16) (by omega)
  obtain ⟨-, -, -, hlow⟩ := hexDigit_spec (b.toNat % 16) (by omega)
  have hne : (hexDigit (b.toNat / 16)).toNat.toUInt8 ≠ 43 := by
    intro h
    have hnat := congrArg UInt8.toNat h
    rw [Nat.toUInt8, UInt8.toNat_ofNat', Nat.mod_eq_of_lt (by omega)] at hnat
    exact hplus hnat
  rw [fromStrRadix16, if_neg hne, hhigh, hlow, Option.bind_some, Option.map_some,
    Nat.div_add_mod', Nat.toUInt8, UInt8.ofNat_toNat]

/-- No byte of an encoding continues a character. -/
theorem head_encode_ascii (bytes : List UInt8) :
    (Utf8.encode (bytes.flatMap encodeByte)).head?.any Utf8.isContinuation = false := by
  cases bytes with
  | nil => rfl
  | cons b bytes =>
    rw [List.flatMap_cons, Utf8.encode_append]
    rcases encode_encodeByte b with ⟨hascii, -, heq⟩ | heq
    · rw [heq]
      simp only [List.cons_append, List.head?_cons, Option.any_some, Utf8.isContinuation]
      have hlt : ¬ (0x80 : UInt8) ≤ b := by
        rw [UInt8.le_iff_toNat_le]
        exact Nat.not_le.mpr hascii
      simp [hlt]
    · rw [heq]
      rfl

theorem decodeBytes_encode (bytes : List UInt8) :
    decodeBytes (Utf8.encode (bytes.flatMap encodeByte)) = some bytes := by
  induction bytes with
  | nil => rfl
  | cons b bytes ih =>
    rw [List.flatMap_cons, Utf8.encode_append]
    rcases encode_encodeByte b with ⟨-, hne, heq⟩ | heq
    · rw [heq, List.singleton_append, decodeBytes.eq_3 _ _ (fun _ _ _ h ↦ absurd h hne), ih]
      rfl
    · rw [heq]
      simp only [List.cons_append, List.nil_append, decodeBytes]
      rw [head_encode_ascii, if_neg Bool.false_ne_true, fromStrRadix16_hexDigit, ih]
      rfl

/-- What was escaped is read back. -/
theorem percentDecode_encode (s : List Char) : percentDecode (percentEncodePath s) = some s := by
  rw [percentDecode, percentEncodePath, decodeBytes_encode, Option.map_some,
    Utf8.fromUtf8Lossy_encode]

theorem percentEncodePath_injective : Function.Injective percentEncodePath := by
  intro s s' h
  have hdecoded := congrArg percentDecode h
  rw [percentDecode_encode, percentDecode_encode] at hdecoded
  exact Option.some.inj hdecoded

theorem head_percentEncodePath {p : List Char} (h : p.head? = some '/') :
    (percentEncodePath p).head? = some '/' := by
  obtain ⟨rest, rfl⟩ := List.head?_eq_some_iff.mp h
  rfl

/-! ### The round trip -/

/-- A `file` URI of path text alone is a URI of scheme `file`, and has that text as its path. -/
def UriLibrary.ReturnsPath (lib : UriLibrary) : Prop :=
  ∀ e, PathText e → e.head? = some '/' →
    ∃ uri, lib.parse ("file://".toList ++ e) = some uri ∧
      lib.scheme uri = some "file".toList ∧ lib.path uri = e

theorem UriLibrary.ReturnsPath.uriToPath_pathToUri {lib : UriLibrary} (h : lib.ReturnsPath)
    {p : List Char} (hp : p.head? = some '/') :
    ∃ uri, lib.pathToUri p = some uri ∧ lib.uriToPath uri = some (some p) := by
  have hhead := head_percentEncodePath hp
  obtain ⟨uri, hparse, hscheme, hpath⟩ := h _ (percentEncodePath_pathText p) hhead
  refine ⟨uri, ?_, ?_⟩
  · rw [UriLibrary.pathToUri, if_pos hhead, hparse]
  · rw [UriLibrary.uriToPath, hscheme, Option.bind_some, hpath, percentDecode_encode]
    rfl

theorem fileUri_roundTrip (lib : UriLibrary) (hlib : lib.ReturnsPath) :
    (∀ s, percentDecode (percentEncodePath s) = some s) ∧
      (∀ s, PathText (percentEncodePath s)) ∧
      Function.Injective percentEncodePath ∧
      ∀ p, p.head? = some '/' →
        ∃ uri, lib.pathToUri p = some uri ∧ lib.uriToPath uri = some (some p) := by
  refine ⟨percentDecode_encode, percentEncodePath_pathText, percentEncodePath_injective, ?_⟩
  intro p hp
  exact hlib.uriToPath_pathToUri hp

/-- URIs of an empty authority: their scheme and what stands after it. -/
def plainUris : UriLibrary where
  Uri := List Char × List Char
  parse text :=
    match text.span (· ≠ ':') with
    | (scheme, ':' :: '/' :: '/' :: '/' :: path) => some (scheme, '/' :: path)
    | _ => none
  scheme uri := some uri.1
  path uri := uri.2

theorem plainUris_returnsPath : plainUris.ReturnsPath := by
  intro e _ hhead
  obtain ⟨rest, rfl⟩ := List.head?_eq_some_iff.mp hhead
  exact ⟨("file".toList, '/' :: rest), rfl, rfl, rfl⟩

theorem plainUri_roundTrip :
    (∃ uri, plainUris.pathToUri "/tmp/my project#1.rb".toList = some uri ∧
      plainUris.uriToPath uri = some (some "/tmp/my project#1.rb".toList)) ∧
      plainUris.ReturnsPath :=
  ⟨(fileUri_roundTrip plainUris plainUris_returnsPath).2.2.2 _ rfl, plainUris_returnsPath⟩

end Itaruby.Server
