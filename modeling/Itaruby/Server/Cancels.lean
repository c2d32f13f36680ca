import Itaruby.Server.Requests

/-!
Cancellation: the ids that `$/cancelRequest` names are kept until a request with the id is
dispatched. While every cancel comes for a request that still waits, the requests answered as
cancelled are those that a cancel named; a late one stays for the next request with its id.
-/

set_option autoImplicit false
set_option relaxedAutoImplicit false

namespace Itaruby.Server

section Cancels

variable {Json Answer : Type}

/-! ### What the client may do, and when a cancel is on time -/

/-- An id is used again only when no request with it is left. -/
def IdFree (s : MessageLoop Json) (e : Event Json Answer) : Prop :=
  ∀ req, e = .arrived (.request req) → req.id ∉ (s.waiting ++ requests s.channel).map Request.id

/-- A cancel is received while its request waits, and no cancelled `shutdown` is dispatched. -/
def OnTime (s : MessageLoop Json) : Event Json Answer → Prop
  | .received (.cancelRequest params) =>
    ∀ id, parseCancelId params = some id → id ∈ s.waiting.map Request.id
  | .answered req _ => req.method = "shutdown" → req.id ∉ s.cancelled
  | _ => True

/-- A cancel with the id was received after the last request with it. -/
def CancelledIn (msgs : List (Message Json)) (id : RequestId) : Prop :=
  ∃ before req after, msgs = before ++ .request req :: after ∧ req.id = id ∧
    (∀ other ∈ requests after, other.id ≠ id) ∧
    ∃ params, .cancelRequest params ∈ after ∧ parseCancelId params = some id

/-- A request is answered as cancelled if and only if a cancel named it while it waited. -/
def RightlyCancelled (es : List (Event Json Answer)) : Prop :=
  ∀ before req resp after, es = before ++ .answered req resp :: after →
    (resp.reply = .cancelled ↔ CancelledIn (receipts before) req.id)

/-- The cancelled ids are those of requests that wait. -/
def MessageLoop.CancelsWaiting (s : MessageLoop Json) : Prop :=
  ∀ id ∈ s.cancelled, id ∈ s.waiting.map Request.id

/-! ### Cancels among the messages -/

section Messages

variable {msgs : List (Message Json)} {msg : Message Json} {id : RequestId}

/-- A list that ends with one message splits before it, or at it. -/
theorem append_singleton_eq_split {before after : List (Message Json)} {x : Message Json}
    (h : msgs ++ [msg] = before ++ x :: after) :
    (after = [] ∧ msgs = before ∧ msg = x) ∨
      ∃ rest, after = rest ++ [msg] ∧ msgs = before ++ x :: rest := by
  rcases List.eq_nil_or_concat after with rfl | ⟨rest, last, rfl⟩
  · obtain ⟨hmsgs, hlast⟩ := List.append_inj' h rfl
    exact .inl ⟨rfl, hmsgs, (List.cons.inj hlast).1⟩
  · rw [List.concat_eq_append, ← List.cons_append, ← List.append_assoc] at h
    obtain ⟨hmsgs, hlast⟩ := List.append_inj' h rfl
    refine .inr ⟨rest, ?_, hmsgs⟩
    rw [List.concat_eq_append, hlast]

/-- Among the requests with an id there is a last one. -/
theorem exists_last_request (h : id ∈ (requests msgs).map Request.id) :
    ∃ before req after, msgs = before ++ .request req :: after ∧ req.id = id ∧
      ∀ other ∈ requests after, other.id ≠ id := by
  induction msgs using List.reverseRecOn with
  | nil => cases h
  | append_singleton msgs msg ih =>
    by_cases hlast : ∃ req, msg = .request req ∧ req.id = id
    · obtain ⟨req, rfl, hid⟩ := hlast
      exact ⟨msgs, req, [], rfl, hid, nofun⟩
    · rw [requests_append, List.map_append] at h
      have hrequest : ∀ other ∈ requests [msg], other.id ≠ id := by
        intro other hother heq
        cases msg with
        | request req => exact hlast ⟨req, rfl, List.mem_singleton.mp hother ▸ heq⟩
        | cancelRequest | notification | response => cases hother
      have hearlier : id ∈ (requests msgs).map Request.id := by
        refine (List.mem_append.mp h).resolve_right fun hmem ↦ ?_
        obtain ⟨other, hother, heq⟩ := List.mem_map.mp hmem
        exact hrequest other hother heq
      obtain ⟨before, req, after, rfl, hid, hafter⟩ := ih hearlier
      refine ⟨before, req, after ++ [msg], by simp, hid, fun other hother ↦ ?_⟩
      rw [requests_append] at hother
      exact (List.mem_append.mp hother).elim (hafter other) (hrequest other)

/-- One more message ends the cancellation of an id if it is a request with the id, and begins it
if it cancels a request that was received. -/
theorem cancelledIn_append :
    CancelledIn (msgs ++ [msg]) id ↔ id ∉ (requests [msg]).map Request.id ∧
      (CancelledIn msgs id ∨ id ∈ (requests msgs).map Request.id ∧
        ∃ params, msg = .cancelRequest params ∧ parseCancelId params = some id) := by
  constructor
  · rintro ⟨before, first, after, hsplit, hid, hlast, params, hmem, hparams⟩
    rcases append_singleton_eq_split hsplit with ⟨rfl, -⟩ | ⟨rest, rfl, rfl⟩
    · cases hmem
    · rw [requests_append] at hlast
      have hrest : ∀ other ∈ requests rest, other.id ≠ id := fun other hother ↦
        hlast other (List.mem_append_left _ hother)
      constructor
      · intro hnew
        obtain ⟨other, hother, heq⟩ := List.mem_map.mp hnew
        exact hlast other (List.mem_append_right _ hother) heq
      · rcases List.mem_append.mp hmem with hold | hnew
        · exact .inl ⟨before, first, rest, rfl, hid, hrest, params, hold, hparams⟩
        · refine .inr ⟨?_, params, (List.mem_singleton.mp hnew).symm, hparams⟩
          rw [requests_append, List.map_append, ← hid]
          exact List.mem_append_right _ List.mem_cons_self
  · rintro ⟨hnew, hcancelled⟩
    have hlater : ∀ after : List (Message Json), (∀ other ∈ requests after, other.id ≠ id) →
        ∀ other ∈ requests (after ++ [msg]), other.id ≠ id := by
      intro after hlast other hother heq
      rw [requests_append] at hother
      rcases List.mem_append.mp hother with hold | hmsg
      · exact hlast other hold heq
      · exact hnew (List.mem_map.mpr ⟨other, hmsg, heq⟩)
    rcases hcancelled with hearlier | ⟨hmem, params, rfl, hparams⟩
    · obtain ⟨before, first, after, rfl, hid, hlast, params, hmem, hparams⟩ := hearlier
      exact ⟨before, first, after ++ [msg], by simp, hid, hlater after hlast, params,
        List.mem_append_left _ hmem, hparams⟩
    · obtain ⟨before, req, after, rfl, hid, hlast⟩ := exists_last_request hmem
      exact ⟨before, req, after ++ [.cancelRequest params], by simp, hid, hlater after hlast,
        params, List.mem_append_right _ List.mem_cons_self, hparams⟩

end Messages

/-! ### Cancels over a run -/

section Run

variable {h : Handlers Json Answer} {m : MainLoop} {s s' : MessageLoop Json}
  {e : Event Json Answer} {es : List (Event Json Answer)} {req : Request Json} {id : RequestId}

/-- The runs in which the client uses an id again only when no request with it is left, and every
cancel is on time. -/
abbrev TimelyRun (h : Handlers Json Answer) (m : MainLoop) (es : List (Event Json Answer))
    (s : MessageLoop Json) : Prop :=
  LoopRun h m (fun s e ↦ IdFree s e ∧ OnTime s e) es s

/-- The ids that are kept are those of the waiting requests that a cancel named. -/
structure Cancelling (es : List (Event Json Answer)) (s : MessageLoop Json) : Prop where
  distinct : ((s.waiting ++ requests s.channel).map Request.id).Nodup
  received : ∀ req ∈ s.waiting, req ∈ requests (receipts es)
  cancelled : ∀ id, id ∈ s.cancelled ↔
    id ∈ s.waiting.map Request.id ∧ CancelledIn (receipts es) id

theorem Cancelling.quiet (hes : Cancelling es s) (hreceipts : receipts [e] = [])
    (hwaiting : s'.waiting = s.waiting) (hcancelled : s'.cancelled = s.cancelled)
    (hdistinct : ((s'.waiting ++ requests s'.channel).map Request.id).Nodup) :
    Cancelling (es ++ [e]) s' where
  distinct := hdistinct
  received := by
    rw [receipts_append, hreceipts, List.append_nil, hwaiting]
    exact hes.received
  cancelled := by
    rw [receipts_append, hreceipts, List.append_nil, hwaiting, hcancelled]
    exact hes.cancelled

/-- A request that is dispatched takes its id with it. -/
theorem Cancelling.dispatched (hes : Cancelling es s) (hhand : s.inHand = some req)
    (hreceipts : receipts [e] = []) {cancelled : Finset RequestId} {running : Bool}
    (hcancelled : cancelled = s.cancelled.erase req.id) :
    Cancelling (es ++ [e])
      { s with inHand := none, cancelled := cancelled, running := running } := by
  have hwaiting := waiting_of_inHand hhand
  have hdistinct := hes.distinct
  rw [hwaiting, List.cons_append, List.map_cons, List.nodup_cons, List.map_append] at hdistinct
  refine ⟨?_, ?_, ?_⟩
  · rw [List.map_append]
    exact hdistinct.2
  · rw [receipts_append, hreceipts, List.append_nil]
    intro other hother
    exact hes.received other (by rw [hwaiting]; exact List.mem_cons_of_mem _ hother)
  · intro id
    rw [receipts_append, hreceipts, List.append_nil]
    change id ∈ cancelled ↔ id ∈ s.pending.map Request.id ∧ _
    rw [hcancelled, Finset.mem_erase, hes.cancelled, hwaiting, List.map_cons, List.mem_cons]
    constructor
    · rintro ⟨hne, hmem, hnamed⟩
      exact ⟨hmem.resolve_left hne, hnamed⟩
    · rintro ⟨hmem, hnamed⟩
      refine ⟨?_, .inr hmem, hnamed⟩
      rintro rfl
      exact hdistinct.1 (List.mem_append_left _ hmem)

theorem Cancelling.receives_request (hes : Cancelling es s) {rest : List (Message Json)}
    (hchannel : s.channel = .request req :: rest) :
    Cancelling (es ++ [.received (.request req)])
      { s with channel := rest, pending := s.pending ++ [req] } := by
  have hwaiting : ({ s with channel := rest, pending := s.pending ++ [req] } :
      MessageLoop Json).waiting = s.waiting ++ [req] := (List.append_assoc _ _ _).symm
  have hdistinct := hes.distinct
  have hrequests : requests s.channel = req :: requests rest := by
    rw [hchannel]
    rfl
  rw [hrequests, List.append_cons] at hdistinct
  have hfresh : req.id ∉ s.waiting.map Request.id := by
    intro hmem
    rw [List.map_append, List.map_append, List.append_assoc] at hdistinct
    exact (List.nodup_append.mp hdistinct).2.2 _ hmem _ List.mem_cons_self rfl
  have hreceipts : receipts [(.received (.request req) : Event Json Answer)] = [.request req] := rfl
  refine ⟨?_, ?_, ?_⟩
  · rw [hwaiting]
    exact hdistinct
  · rw [hwaiting, receipts_append, requests_append]
    intro other hother
    rcases List.mem_append.mp hother with hold | hnew
    · exact List.mem_append_left _ (hes.received other hold)
    · exact List.mem_append_right _ hnew
  · intro id
    have hnamed : CancelledIn (receipts (es ++ [.received (.request req)])) id ↔
        id ≠ req.id ∧ CancelledIn (receipts es) id := by
      rw [receipts_append, hreceipts, cancelledIn_append]
      simp [requests]
    rw [hnamed, hwaiting, List.map_append, List.mem_append]
    refine (hes.cancelled id).trans ⟨?_, ?_⟩
    · rintro ⟨hmem, hcancel⟩
      exact ⟨.inl hmem, fun heq ↦ hfresh (heq ▸ hmem), hcancel⟩
    · rintro ⟨hmem, hne, hcancel⟩
      exact ⟨hmem.resolve_right (by simpa using hne), hcancel⟩

theorem Cancelling.receives_cancel (hes : Cancelling es s) {params : CancelParams}
    {rest : List (Message Json)} (hchannel : s.channel = .cancelRequest params :: rest)
    (htime : OnTime s (.received (.cancelRequest params) : Event Json Answer)) :
    Cancelling (es ++ [.received (.cancelRequest params)])
      ({ s with channel := rest }.absorbMessage (.cancelRequest params)) := by
  have hrequests : requests s.channel = requests rest := by
    rw [hchannel]
    rfl
  have hdistinct := hes.distinct
  rw [hrequests] at hdistinct
  have hreceived : ∀ req ∈ s.waiting,
      req ∈ requests (receipts (es ++ [.received (.cancelRequest params)])) := by
    intro req hreq
    rw [receipts_append, requests_append]
    exact List.mem_append_left _ (hes.received req hreq)
  have hnamed : ∀ id, CancelledIn (receipts (es ++ [.received (.cancelRequest params)])) id ↔
      CancelledIn (receipts es) id ∨
        id ∈ (requests (receipts es)).map Request.id ∧ parseCancelId params = some id := by
    intro id
    rw [receipts_append]
    refine cancelledIn_append.trans ?_
    simp [requests]
  cases hparse : parseCancelId params with
  | none =>
    have hsame : ({ s with channel := rest } : MessageLoop Json).absorbMessage
        (.cancelRequest params) = { s with channel := rest } := by
      simp [MessageLoop.absorbMessage, hparse]
    rw [hsame]
    refine ⟨hdistinct, hreceived, fun id ↦ ?_⟩
    rw [hnamed id, hparse]
    simp only [reduceCtorEq, and_false, or_false]
    exact hes.cancelled id
  | some named =>
    have hsame : ({ s with channel := rest } : MessageLoop Json).absorbMessage
        (.cancelRequest params) =
          { s with channel := rest, cancelled := insert named s.cancelled } := by
      simp [MessageLoop.absorbMessage, hparse]
    rw [hsame]
    refine ⟨hdistinct, hreceived, fun id ↦ ?_⟩
    have hwaits : named ∈ s.waiting.map Request.id := htime named hparse
    rw [hnamed id, hparse]
    change id ∈ insert named s.cancelled ↔ id ∈ s.waiting.map Request.id ∧ _
    rw [Finset.mem_insert, hes.cancelled]
    constructor
    · rintro (rfl | ⟨hmem, hcancel⟩)
      · obtain ⟨req, hreq, heq⟩ := List.mem_map.mp hwaits
        exact ⟨hwaits, .inr ⟨List.mem_map.mpr ⟨req, hes.received req hreq, heq⟩, rfl⟩⟩
      · exact ⟨hmem, .inl hcancel⟩
    · rintro ⟨hmem, hcancel | ⟨-, heq⟩⟩
      · exact .inr ⟨hmem, hcancel⟩
      · exact .inl (Option.some.inj heq).symm

/-- A message that is neither a request nor a cancel. -/
theorem Cancelling.receives_other (hes : Cancelling es s) {msg : Message Json}
    {rest : List (Message Json)} (hchannel : s.channel = msg :: rest)
    (hrequest : requests [msg] = []) (hcancel : ∀ params, msg ≠ .cancelRequest params)
    (hrest : s'.channel = rest) (hwaiting : s'.waiting = s.waiting)
    (hcancelled : s'.cancelled = s.cancelled) : Cancelling (es ++ [.received msg]) s' := by
  have hreceipts : receipts (es ++ [.received msg]) = receipts es ++ [msg] := receipts_append _ _
  refine ⟨?_, ?_, fun id ↦ ?_⟩
  · have hdistinct := hes.distinct
    rw [hchannel, ← List.singleton_append, requests_append, hrequest, List.nil_append] at hdistinct
    rw [hwaiting, hrest]
    exact hdistinct
  · rw [hreceipts, requests_append, hrequest, List.append_nil, hwaiting]
    exact hes.received
  · have hnamed : CancelledIn (receipts es ++ [msg]) id ↔ CancelledIn (receipts es) id := by
      rw [cancelledIn_append, hrequest]
      simp [hcancel]
    rw [hreceipts, hnamed, hwaiting, hcancelled]
    exact hes.cancelled id

theorem Cancelling.receives (hes : Cancelling es s) {msg : Message Json}
    {rest : List (Message Json)} (hchannel : s.channel = msg :: rest)
    (htime : OnTime s (.received msg : Event Json Answer)) :
    Cancelling (es ++ [.received msg]) ({ s with channel := rest }.absorbMessage msg) := by
  cases msg with
  | request req => exact hes.receives_request hchannel
  | cancelRequest params => exact hes.receives_cancel hchannel htime
  | notification note =>
    cases note with
    | none => exact hes.receives_other hchannel rfl nofun rfl rfl rfl
    | some note => exact hes.receives_other hchannel rfl nofun rfl rfl rfl
  | response => exact hes.receives_other hchannel rfl nofun rfl rfl rfl

theorem Cancelling.turn (hes : Cancelling es s) (hturning : Turning h s e s')
    (htime : OnTime s e) : Cancelling (es ++ [e]) s' := by
  cases hturning with
  | received hchannel => exact hes.receives hchannel htime
  | @popped req rest hhand hpending =>
    have hsame : s.waiting = req :: rest := by
      rw [MessageLoop.waiting, hhand, hpending]
      rfl
    have hdistinct := hes.distinct
    rw [hsame] at hdistinct
    exact hes.quiet rfl hsame.symm rfl hdistinct
  | shutdown hhand hchannel hshutdown =>
    exact hes.dispatched hhand rfl (Finset.erase_eq_of_notMem (htime hshutdown)).symm
  | cancelled hhand => exact hes.dispatched hhand rfl rfl
  | replied hhand hchannel hshutdown hcancelled =>
    exact hes.dispatched hhand rfl (Finset.erase_eq_of_notMem hcancelled).symm
  | failed hhand hchannel hcancelled =>
    exact hes.dispatched hhand rfl (Finset.erase_eq_of_notMem hcancelled).symm
  | ended => exact hes.quiet rfl rfl rfl hes.distinct

theorem LoopRun.cancelling (hrun : TimelyRun h m es s) : Cancelling es s := by
  induction hrun with
  | start => exact ⟨List.nodup_nil, nofun, by simp [MessageLoop.start, MessageLoop.waiting]⟩
  | @arrive es s hrun msg hconnected hallowed ih =>
    refine ih.quiet rfl rfl rfl ?_
    change ((s.waiting ++ requests (s.channel ++ [msg])).map Request.id).Nodup
    rw [requests_append, ← List.append_assoc, List.map_append, List.nodup_append]
    refine ⟨ih.distinct, ?_, ?_⟩
    · cases msg with
      | request req => exact List.nodup_singleton _
      | cancelRequest | notification | response => exact List.nodup_nil
    · intro a ha b hb heq
      cases msg with
      | request req =>
        have hfree := hallowed.1 req rfl
        obtain rfl := List.mem_singleton.mp hb
        exact hfree (heq ▸ ha)
      | cancelRequest | notification | response => cases hb
  | hangUp hrun hallowed ih => exact ih.quiet rfl rfl rfl ih.distinct
  | turn hrun hturn hallowed ih => exact ih.turn (turning_of_turn hturn).2 hallowed.2

theorem routeRequest_ne_cancelled (m : MainLoop) : routeRequest h m req ≠ some .cancelled := by
  unfold routeRequest routeNonDefinitionRequest
  intro heq
  split at heq
  next =>
    obtain ⟨f, -, hf⟩ := Option.map_eq_some_iff.mp heq
    cases hf
  next =>
    split at heq
    next =>
      obtain ⟨f, -, hf⟩ := Option.map_eq_some_iff.mp heq
      cases hf
    next =>
      split at heq
      next =>
        obtain ⟨f, -, hf⟩ := Option.map_eq_some_iff.mp heq
        cases hf
      next => cases heq

/-- The answer to a request in hand is `RequestCancelled` exactly when its id is kept, except for
`shutdown`. -/
theorem Turning.cancelled_iff {resp : Response Answer}
    (hturning : Turning h s (.answered req resp) s') :
    s.inHand = some req ∧
      (resp.reply = .cancelled ↔ req.id ∈ s.cancelled ∧ req.method ≠ "shutdown") := by
  cases hturning with
  | shutdown hhand hchannel hshutdown =>
    exact ⟨hhand, nofun, fun hcancelled ↦ absurd hshutdown hcancelled.2⟩
  | cancelled hhand hchannel hshutdown hcancelled =>
    exact ⟨hhand, fun _ ↦ ⟨hcancelled, hshutdown⟩, fun _ ↦ rfl⟩
  | @replied req reply hhand hchannel hshutdown hcancelled hreply =>
    refine ⟨hhand, fun heq ↦ ?_, fun hmem ↦ absurd hmem.1 hcancelled⟩
    obtain rfl : reply = .cancelled := heq
    exact absurd hreply (routeRequest_ne_cancelled s.main)

/-- For a request in hand, its id is kept exactly when a cancel named it. -/
theorem Cancelling.mem_cancelled (hes : Cancelling es s) (hhand : s.inHand = some req) :
    req.id ∈ s.cancelled ↔ CancelledIn (receipts es) req.id := by
  have hmem : req.id ∈ s.waiting.map Request.id := by
    rw [waiting_of_inHand hhand]
    exact List.mem_cons_self
  rw [hes.cancelled]
  exact and_iff_right hmem

theorem LoopRun.rightlyCancelled (hrun : TimelyRun h m es s) : RightlyCancelled es := by
  intro before req resp after hes
  obtain ⟨s₀, s₁, hbefore, hturn, hallowed⟩ := hrun.exists_turn_of_answered hes
  obtain ⟨hhand, hcancelled⟩ := (turning_of_turn hturn).2.cancelled_iff
  rw [hcancelled, ← hbefore.cancelling.mem_cancelled hhand]
  exact ⟨And.left, fun hmem ↦ ⟨hmem, fun hshutdown ↦ hallowed.2 hshutdown hmem⟩⟩

theorem LoopRun.cancelsWaiting (hrun : TimelyRun h m es s) : s.CancelsWaiting := fun id hid ↦
  ((hrun.cancelling.cancelled id).mp hid).1

/-- A turn that is not on time leaves a late id behind, or answers a cancelled `shutdown`. -/
theorem LoopRun.onTime_of_turn (hrun : TimelyRun h m es s) (hturn : s.turn h = some (e, s'))
    (hwaiting : s'.CancelsWaiting) (hright : RightlyCancelled (es ++ [e])) : OnTime s e := by
  obtain ⟨-, hturning⟩ := turning_of_turn hturn
  cases hturning with
  | @received msg rest hchannel =>
    cases msg with
    | request | notification | response => trivial
    | cancelRequest params =>
      intro id hparse
      have hkept : ({ s with channel := rest } : MessageLoop Json).absorbMessage
          (.cancelRequest params) =
            { s with channel := rest, cancelled := insert id s.cancelled } := by
        simp [MessageLoop.absorbMessage, hparse]
      rw [hkept] at hwaiting
      exact hwaiting id (Finset.mem_insert_self id s.cancelled)
  | @shutdown req hhand hchannel hshutdown =>
    intro _ hmem
    have hnamed := (hrun.cancelling.mem_cancelled hhand).mp hmem
    cases (hright es req _ [] rfl).mpr hnamed
  | cancelled hhand hchannel hshutdown => exact fun heq ↦ absurd heq hshutdown
  | replied hhand hchannel hshutdown => exact fun heq ↦ absurd heq hshutdown
  | popped | failed | ended => trivial

/-- While every cancel comes for a request that waits, and no cancelled `shutdown` is dispatched,
the requests answered as cancelled are those that a cancel named, and no other id is kept; the
next turn keeps this exactly when it is on time itself. -/
theorem cancels_what_it_names (hrun : TimelyRun h m es s) :
    RightlyCancelled es ∧ s.CancelsWaiting ∧
      ∀ e s', s.turn h = some (e, s') →
        (OnTime s e ↔ s'.CancelsWaiting ∧ RightlyCancelled (es ++ [e])) := by
  refine ⟨hrun.rightlyCancelled, hrun.cancelsWaiting, fun e s' hturn ↦ ?_⟩
  constructor
  · intro htime
    have hfree : IdFree s e := by
      rintro req rfl
      cases (turning_of_turn hturn).2.channel.1
    have hnext : TimelyRun h m (es ++ [e]) s' := hrun.turn hturn ⟨hfree, htime⟩
    exact ⟨hnext.cancelsWaiting, hnext.rightlyCancelled⟩
  · rintro ⟨hwaiting, hright⟩
    exact hrun.onTime_of_turn hturn hwaiting hright

end Run

/-! ### A request that is cancelled, and one that is not -/

section Examples

def cancelOne : Message Unit := .cancelRequest (.integer 1)

/-- A request is received, and cancelled before it is dispatched. -/
def cancelledInTime : List (Event Unit Unit) :=
  [.arrived (.request hoverRequest), .received (.request hoverRequest), .popped hoverRequest,
    .arrived cancelOne, .received cancelOne, .answered hoverRequest ⟨.number 1, .cancelled⟩]

theorem cancelledInTime_right : RightlyCancelled cancelledInTime := by
  have hfree : IdFree (.start nothingLoaded) (.arrived (.request hoverRequest) : Event Unit Unit) :=
    fun _ _ ↦ List.not_mem_nil
  have hwaits : ∀ (s : MessageLoop Unit), s.inHand = some hoverRequest →
      OnTime s (.received cancelOne : Event Unit Unit) := by
    intro s hhand id hid
    rw [waiting_of_inHand hhand, ← Option.some.inj hid]
    exact List.mem_cons_self
  have hstart : TimelyRun alike nothingLoaded [] (.start nothingLoaded) := .start
  have harrived := hstart.arrive (.request hoverRequest) rfl ⟨hfree, trivial⟩
  have hpopped := (harrived.turn rfl ⟨nofun, trivial⟩).turn rfl ⟨nofun, trivial⟩
  have hcancel := (hpopped.arrive cancelOne rfl ⟨nofun, trivial⟩).turn rfl ⟨nofun, hwaits _ rfl⟩
  have hanswered := hcancel.turn rfl ⟨nofun, fun hshutdown ↦ absurd hshutdown (by decide)⟩
  exact (cancels_what_it_names hanswered).1

/-- The cancel comes after the answer, and the client uses the id again. -/
def cancelledTooLate : List (Event Unit Unit) :=
  [.arrived (.request hoverRequest), .received (.request hoverRequest), .popped hoverRequest,
    .answered hoverRequest ⟨.number 1, .answer ()⟩, .arrived cancelOne, .received cancelOne,
    .arrived (.request hoverRequest), .received (.request hoverRequest), .popped hoverRequest]

theorem cancelledTooLate_wrong : ¬ ∀ (es : List (Event Unit Unit)) s,
    LoopRun alike nothingLoaded IdFree es s → RightlyCancelled es ∧ s.CancelsWaiting := by
  intro hall
  have hfree : ∀ (s : MessageLoop Unit), s.waiting = [] → s.channel = [] →
      IdFree s (.arrived (.request hoverRequest) : Event Unit Unit) := by
    intro s hwaiting hchannel req hreq
    rw [hwaiting, hchannel]
    exact List.not_mem_nil
  have hstart : LoopRun alike nothingLoaded IdFree [] (.start nothingLoaded) := .start
  have harrived := hstart.arrive (.request hoverRequest) rfl (hfree _ rfl rfl)
  have hpopped := (harrived.turn rfl nofun).turn rfl nofun
  have hlate := ((hpopped.turn rfl nofun).arrive cancelOne rfl nofun).turn rfl nofun
  have hagain := hlate.arrive (.request hoverRequest) rfl (hfree _ rfl rfl)
  have hanswered := ((hagain.turn rfl nofun).turn rfl nofun).turn rfl nofun
  have hright := (hall _ _ hanswered).1 cancelledTooLate hoverRequest _ [] rfl
  have hnamed := hright.mp rfl
  have hreceipts : receipts cancelledTooLate =
      [.request hoverRequest, cancelOne] ++ [.request hoverRequest] := rfl
  rw [hreceipts, cancelledIn_append] at hnamed
  exact hnamed.1 List.mem_cons_self

end Examples

end Cancels

end Itaruby.Server
