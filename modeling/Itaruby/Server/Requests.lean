import Itaruby.Server.State
import Mathlib.Data.Finset.Basic
import Mathlib.Data.List.Infix

/-!
The message loop: requests wait in a queue while notifications are applied at once, and a request
is dispatched when the channel has been drained. Every request is answered once, in order, and
from a state to which all the notifications that had arrived are applied.
-/

set_option autoImplicit false
set_option relaxedAutoImplicit false

namespace Itaruby.Server

/-! ### Messages -/

/-- The id of a request, a number of 32 bits or a string. -/
inductive RequestId
  | number (n : Int32)
  | string (s : String)
deriving DecidableEq, Repr

/-- The `id` in the parameters of `$/cancelRequest`. -/
inductive CancelParams
  | integer (n : ℤ)
  | string (s : String)
  | other
deriving DecidableEq, Repr

def parseCancelId : CancelParams → Option RequestId
  | .integer n =>
    if Int32.minValue.toInt ≤ n ∧ n ≤ Int32.maxValue.toInt then some (.number (Int32.ofInt n))
    else none
  | .string s => some (.string s)
  | .other => none

structure Request (Json : Type) where
  id : RequestId
  method : String
  params : Json

/-- What comes from the client. A notification whose parameters do not deserialize is `none`. -/
inductive Message (Json : Type)
  | request (req : Request Json)
  | cancelRequest (params : CancelParams)
  | notification (note : Option Notification)
  | response

inductive Reply (Answer : Type)
  | answer (a : Answer)
  | cancelled
  | methodNotFound (method : String)
  | shutdown

structure Response (Answer : Type) where
  id : RequestId
  reply : Reply Answer

/-- What the three handlers answer from the state of the server, where the parameters of the
request deserialize. -/
structure Handlers (Json Answer : Type) where
  definition : Json → Option (MainLoop → Answer)
  hover : Json → Option (MainLoop → Answer)
  diagnostic : Json → Option (MainLoop → Answer)

/-! ### The message loop -/

/-- The loop, with what is in its channel. A request that was popped is in hand until it is
dispatched. -/
structure MessageLoop (Json : Type) where
  channel : List (Message Json)
  connected : Bool
  main : MainLoop
  pending : List (Request Json)
  inHand : Option (Request Json)
  cancelled : Finset RequestId
  running : Bool

/-- What can be seen of the loop and of its channel. -/
inductive Event (Json Answer : Type)
  | arrived (msg : Message Json)
  | hungUp
  | received (msg : Message Json)
  | popped (req : Request Json)
  | answered (req : Request Json) (resp : Response Answer)
  | failed (req : Request Json)
  | ended

section Loop

variable {Json Answer : Type}

namespace MessageLoop

/-- The loop stops, with an error, on a notification that does not deserialize. -/
def absorbMessage (s : MessageLoop Json) : Message Json → MessageLoop Json
  | .request req => { s with pending := s.pending ++ [req] }
  | .cancelRequest params =>
    match parseCancelId params with
    | some id => { s with cancelled := insert id s.cancelled }
    | none => s
  | .notification (some note) => { s with main := (s.main.handleNotification note).1 }
  | .notification none => { s with running := false }
  | .response => s

end MessageLoop

/-- `none` when the parameters are malformed. -/
def routeNonDefinitionRequest (h : Handlers Json Answer) (m : MainLoop) (req : Request Json) :
    Option (Reply Answer) :=
  if req.method = "textDocument/hover" then (h.hover req.params).map fun f ↦ .answer (f m)
  else if req.method = "textDocument/diagnostic" then
    (h.diagnostic req.params).map fun f ↦ .answer (f m)
  else some (.methodNotFound req.method)

/-- What a request that was not cancelled is answered from a state. -/
def routeRequest (h : Handlers Json Answer) (m : MainLoop) (req : Request Json) :
    Option (Reply Answer) :=
  if req.method = "textDocument/definition" then
    (h.definition req.params).map fun f ↦ .answer (f m)
  else routeNonDefinitionRequest h m req

namespace MessageLoop

/-- The loop goes on after an answer, but to that of `shutdown`. -/
def dispatchRequest (h : Handlers Json Answer) (s : MessageLoop Json) (req : Request Json) :
    Event Json Answer × MessageLoop Json :=
  if req.method = "shutdown" then
    (.answered req ⟨req.id, .shutdown⟩, { s with inHand := none, running := false })
  else if req.id ∈ s.cancelled then
    (.answered req ⟨req.id, .cancelled⟩,
      { s with inHand := none, cancelled := s.cancelled.erase req.id })
  else
    match routeRequest h s.main req with
    | some reply => (.answered req ⟨req.id, reply⟩, { s with inHand := none })
    | none => (.failed req, { s with inHand := none, running := false })

/-- What the loop does next by itself, or nothing while it waits for a message. The drain that
finds the channel empty dispatches the request in hand. -/
def turn (h : Handlers Json Answer) (s : MessageLoop Json) :
    Option (Event Json Answer × MessageLoop Json) :=
  if !s.running then none
  else
    match s.inHand, s.pending, s.channel with
    | some _, _, msg :: rest => some (.received msg, { s with channel := rest }.absorbMessage msg)
    | some req, _, [] => some (s.dispatchRequest h req)
    | none, req :: rest, _ => some (.popped req, { s with inHand := some req, pending := rest })
    | none, [], msg :: rest => some (.received msg, { s with channel := rest }.absorbMessage msg)
    | none, [], [] => if s.connected then none else some (.ended, { s with running := false })

def start (m : MainLoop) : MessageLoop Json where
  channel := []
  connected := true
  main := m
  pending := []
  inHand := none
  cancelled := ∅
  running := true

/-- The requests that were received and are not dispatched yet. -/
def waiting (s : MessageLoop Json) : List (Request Json) := s.inHand.toList ++ s.pending

end MessageLoop

/-- The runs of the loop, with messages that arrive at any time, over the steps allowed. -/
inductive LoopRun (h : Handlers Json Answer) (m : MainLoop)
    (allowed : MessageLoop Json → Event Json Answer → Prop) :
    List (Event Json Answer) → MessageLoop Json → Prop
  | start : LoopRun h m allowed [] (.start m)
  | arrive {es : List (Event Json Answer)} {s : MessageLoop Json} (hrun : LoopRun h m allowed es s)
      (msg : Message Json) (hconnected : s.connected) (hallowed : allowed s (.arrived msg)) :
      LoopRun h m allowed (es ++ [.arrived msg]) { s with channel := s.channel ++ [msg] }
  | hangUp {es : List (Event Json Answer)} {s : MessageLoop Json} (hrun : LoopRun h m allowed es s)
      (hallowed : allowed s .hungUp) :
      LoopRun h m allowed (es ++ [.hungUp]) { s with connected := false }
  | turn {es : List (Event Json Answer)} {s s' : MessageLoop Json} {e : Event Json Answer}
      (hrun : LoopRun h m allowed es s) (hturn : s.turn h = some (e, s')) (hallowed : allowed s e) :
      LoopRun h m allowed (es ++ [e]) s'

/-- What the loop does by itself, while nothing arrives. -/
inductive Turns (h : Handlers Json Answer) :
    MessageLoop Json → List (Event Json Answer) → MessageLoop Json → Prop
  | rest (s : MessageLoop Json) : Turns h s [] s
  | turn {s s' s'' : MessageLoop Json} {e : Event Json Answer} {es : List (Event Json Answer)}
      (hturn : s.turn h = some (e, s')) (hturns : Turns h s' es s'') : Turns h s (e :: es) s''

/-! ### What a turn can do -/

section Turning

variable {h : Handlers Json Answer} {s s' : MessageLoop Json} {e : Event Json Answer}

/-- The turns of the loop. -/
inductive Turning (h : Handlers Json Answer) (s : MessageLoop Json) :
    Event Json Answer → MessageLoop Json → Prop
  | received {msg : Message Json} {rest : List (Message Json)}
      (hchannel : s.channel = msg :: rest) :
      Turning h s (.received msg) ({ s with channel := rest }.absorbMessage msg)
  | popped {req : Request Json} {rest : List (Request Json)} (hhand : s.inHand = none)
      (hpending : s.pending = req :: rest) :
      Turning h s (.popped req) { s with inHand := some req, pending := rest }
  | shutdown {req : Request Json} (hhand : s.inHand = some req) (hchannel : s.channel = [])
      (hshutdown : req.method = "shutdown") :
      Turning h s (.answered req ⟨req.id, .shutdown⟩) { s with inHand := none, running := false }
  | cancelled {req : Request Json} (hhand : s.inHand = some req) (hchannel : s.channel = [])
      (hshutdown : req.method ≠ "shutdown") (hcancelled : req.id ∈ s.cancelled) :
      Turning h s (.answered req ⟨req.id, .cancelled⟩)
        { s with inHand := none, cancelled := s.cancelled.erase req.id }
  | replied {req : Request Json} {reply : Reply Answer} (hhand : s.inHand = some req)
      (hchannel : s.channel = []) (hshutdown : req.method ≠ "shutdown")
      (hcancelled : req.id ∉ s.cancelled) (hreply : routeRequest h s.main req = some reply) :
      Turning h s (.answered req ⟨req.id, reply⟩) { s with inHand := none }
  | failed {req : Request Json} (hhand : s.inHand = some req) (hchannel : s.channel = [])
      (hcancelled : req.id ∉ s.cancelled) (hfailed : routeRequest h s.main req = none) :
      Turning h s (.failed req) { s with inHand := none, running := false }
  | ended (hhand : s.inHand = none) (hpending : s.pending = []) (hchannel : s.channel = [])
      (hconnected : s.connected = false) : Turning h s .ended { s with running := false }

theorem turning_dispatchRequest {req : Request Json} (hhand : s.inHand = some req)
    (hchannel : s.channel = []) :
    Turning h s (s.dispatchRequest h req).1 (s.dispatchRequest h req).2 := by
  unfold MessageLoop.dispatchRequest
  split
  next hshutdown => exact .shutdown hhand hchannel hshutdown
  next hshutdown =>
    split
    next hcancelled => exact .cancelled hhand hchannel hshutdown hcancelled
    next hcancelled =>
      cases hreply : routeRequest h s.main req with
      | some reply => exact .replied hhand hchannel hshutdown hcancelled hreply
      | none => exact .failed hhand hchannel hcancelled hreply

theorem turning_of_turn (hturn : s.turn h = some (e, s')) : s.running ∧ Turning h s e s' := by
  unfold MessageLoop.turn at hturn
  split at hturn
  · cases hturn
  next hrunning =>
    refine ⟨by simpa using hrunning, ?_⟩
    split at hturn
    next hhand hpending hchannel =>
      cases hturn
      exact .received hchannel
    next req hhand hchannel =>
      obtain ⟨rfl, rfl⟩ := Prod.mk.inj (Option.some.inj hturn)
      exact turning_dispatchRequest hhand hchannel
    next hhand hpending =>
      cases hturn
      exact .popped hhand hpending
    next hhand hpending hchannel =>
      cases hturn
      exact .received hchannel
    next hhand hpending hchannel =>
      split at hturn
      next => cases hturn
      next hconnected =>
        cases hturn
        exact .ended hhand hpending hchannel (by simpa using hconnected)

/-- The loop waits for a message when it has none, and no request either. -/
theorem at_rest_of_turn (hturn : s.turn h = none) (hrunning : s.running) :
    s.channel = [] ∧ s.waiting = [] := by
  unfold MessageLoop.turn at hturn
  rw [hrunning] at hturn
  simp only [Bool.not_true, Bool.false_eq_true, if_false] at hturn
  split at hturn
  next hhand hpending hchannel => cases hturn
  next => cases hturn
  next => cases hturn
  next => cases hturn
  next hhand hpending hchannel =>
    refine ⟨hchannel, ?_⟩
    rw [MessageLoop.waiting, hhand, hpending]
    rfl

end Turning

/-! ### What a run has seen -/

def arrivals (es : List (Event Json Answer)) : List (Message Json) :=
  es.filterMap fun
    | .arrived msg => some msg
    | _ => none

def receipts (es : List (Event Json Answer)) : List (Message Json) :=
  es.filterMap fun
    | .received msg => some msg
    | _ => none

def answers (es : List (Event Json Answer)) : List (Request Json × Response Answer) :=
  es.filterMap fun
    | .answered req resp => some (req, resp)
    | _ => none

def requests (msgs : List (Message Json)) : List (Request Json) :=
  msgs.filterMap fun
    | .request req => some req
    | _ => none

/-- The state to which the notifications among the messages are applied. -/
def told (m : MainLoop) (msgs : List (Message Json)) : MainLoop :=
  msgs.foldl (fun m msg ↦ match msg with
    | .notification (some note) => (m.handleNotification note).1
    | _ => m) m

@[simp]
theorem arrivals_append (es es' : List (Event Json Answer)) :
    arrivals (es ++ es') = arrivals es ++ arrivals es' := List.filterMap_append

@[simp]
theorem receipts_append (es es' : List (Event Json Answer)) :
    receipts (es ++ es') = receipts es ++ receipts es' := List.filterMap_append

@[simp]
theorem answers_append (es es' : List (Event Json Answer)) :
    answers (es ++ es') = answers es ++ answers es' := List.filterMap_append

@[simp]
theorem requests_append (msgs msgs' : List (Message Json)) :
    requests (msgs ++ msgs') = requests msgs ++ requests msgs' := List.filterMap_append

/-! ### No message is lost on the way to the loop -/

section Channel

variable {h : Handlers Json Answer} {m : MainLoop} {s s' : MessageLoop Json}
  {e : Event Json Answer} {es : List (Event Json Answer)} {msg : Message Json}
  {allowed : MessageLoop Json → Event Json Answer → Prop}

@[simp]
theorem absorbMessage_channel : (s.absorbMessage msg).channel = s.channel := by
  unfold MessageLoop.absorbMessage
  split
  · rfl
  · split <;> rfl
  · rfl
  · rfl
  · rfl

@[simp]
theorem absorbMessage_inHand : (s.absorbMessage msg).inHand = s.inHand := by
  unfold MessageLoop.absorbMessage
  split
  · rfl
  · split <;> rfl
  · rfl
  · rfl
  · rfl

/-- A turn takes at most the first message of the channel. -/
theorem Turning.channel (hturning : Turning h s e s') :
    arrivals [e] = [] ∧ s.channel = receipts [e] ++ s'.channel := by
  cases hturning with
  | received hchannel => exact ⟨rfl, by rw [hchannel, absorbMessage_channel]; rfl⟩
  | popped | shutdown | cancelled | replied | failed | ended => exact ⟨rfl, rfl⟩

/-- What arrived is received, in order, or still in the channel. -/
theorem LoopRun.channel (hrun : LoopRun h m allowed es s) :
    arrivals es = receipts es ++ s.channel := by
  induction hrun with
  | start => rfl
  | @arrive es s hrun msg hconnected hallowed ih =>
    have hlast : receipts [(.arrived msg : Event Json Answer)] = [] := rfl
    rw [arrivals_append, receipts_append, hlast, List.append_nil, ih, List.append_assoc]
    rfl
  | hangUp hrun hallowed ih =>
    rw [arrivals_append, receipts_append, ih]
    simp [arrivals, receipts]
  | turn hrun hturn hallowed ih =>
    obtain ⟨hnone, htaken⟩ := (turning_of_turn hturn).2.channel
    rw [arrivals_append, receipts_append, hnone, List.append_nil, ih, htaken, List.append_assoc]

end Channel

/-! ### Requests are answered in order -/

/-- The parameters of the request deserialize. -/
def Handlers.Accepts (h : Handlers Json Answer) (req : Request Json) : Prop :=
  (req.method = "textDocument/definition" → (h.definition req.params).isSome) ∧
    (req.method = "textDocument/hover" → (h.hover req.params).isSome) ∧
    (req.method = "textDocument/diagnostic" → (h.diagnostic req.params).isSome)

/-- The message is no `shutdown` and its parameters deserialize. -/
def Message.Proper (h : Handlers Json Answer) : Message Json → Prop
  | .request req => req.method ≠ "shutdown" ∧ h.Accepts req
  | .notification note => note.isSome
  | _ => True

/-- Only such messages arrive. -/
def Proper (h : Handlers Json Answer) (_ : MessageLoop Json) (e : Event Json Answer) : Prop :=
  ∀ msg, e = .arrived msg → msg.Proper h

section Order

variable {h : Handlers Json Answer} {m : MainLoop} {s s' : MessageLoop Json}
  {e : Event Json Answer} {es : List (Event Json Answer)} {msg : Message Json}
  {req : Request Json} {allowed : MessageLoop Json → Event Json Answer → Prop}

theorem routeRequest_isSome (haccepts : h.Accepts req) (m : MainLoop) :
    ∃ reply, routeRequest h m req = some reply := by
  obtain ⟨hdefinition, hhover, hdiagnostic⟩ := haccepts
  rw [← Option.isSome_iff_exists]
  unfold routeRequest routeNonDefinitionRequest
  split
  next hmethod => simpa using hdefinition hmethod
  next =>
    split
    next hmethod => simpa using hhover hmethod
    next =>
      split
      next hmethod => simpa using hdiagnostic hmethod
      next => rfl

/-- What holds between the events of a run of proper messages and its state. -/
structure Answering (h : Handlers Json Answer) (m : MainLoop) (es : List (Event Json Answer))
    (s : MessageLoop Json) : Prop where
  proper : ∀ msg ∈ arrivals es, msg.Proper h
  order : requests (receipts es) = (answers es).map Prod.fst ++ s.waiting
  applied : s.main = told m (receipts es)
  stopped : s.running = false → s.connected = false ∧ s.channel = [] ∧ s.waiting = []

theorem Answering.proper_received (hes : Answering h m es s)
    (hchannel : arrivals es = receipts es ++ s.channel) :
    (∀ req ∈ s.waiting, req.method ≠ "shutdown" ∧ h.Accepts req) ∧
      ∀ msg ∈ s.channel, msg.Proper h := by
  constructor
  · intro req hreq
    have hmem : req ∈ requests (receipts es) := by
      rw [hes.order]
      exact List.mem_append_right _ hreq
    obtain ⟨msg, hmsg, hrequest⟩ := List.mem_filterMap.mp hmem
    have hproper := hes.proper msg (by rw [hchannel]; exact List.mem_append_left _ hmsg)
    cases msg with
    | request other =>
      cases hrequest
      exact hproper
    | cancelRequest | notification | response => cases hrequest
  · intro msg hmsg
    exact hes.proper msg (by rw [hchannel]; exact List.mem_append_right _ hmsg)

/-- A proper message joins the queue, or is applied at once. -/
theorem absorbMessage_proper (hproper : msg.Proper h) :
    (s.absorbMessage msg).waiting = s.waiting ++ requests [msg] ∧
      (s.absorbMessage msg).main = told s.main [msg] ∧
      (s.absorbMessage msg).running = s.running := by
  cases msg with
  | request req => exact ⟨(List.append_assoc _ _ _).symm, rfl, rfl⟩
  | cancelRequest params =>
    simp only [MessageLoop.absorbMessage]
    split
    · exact ⟨(List.append_nil _).symm, rfl, rfl⟩
    · exact ⟨(List.append_nil _).symm, rfl, rfl⟩
  | notification note =>
    cases note with
    | none => cases hproper
    | some note => exact ⟨(List.append_nil _).symm, rfl, rfl⟩
  | response => exact ⟨(List.append_nil _).symm, rfl, rfl⟩

theorem told_append (m : MainLoop) (msgs msgs' : List (Message Json)) :
    told m (msgs ++ msgs') = told (told m msgs) msgs' := List.foldl_append

theorem waiting_of_inHand (hhand : s.inHand = some req) : s.waiting = req :: s.pending := by
  rw [MessageLoop.waiting, hhand]
  rfl

/-- A request that is answered is the first that waits. -/
theorem Answering.answered (hes : Answering h m es s) (hhand : s.inHand = some req)
    (resp : Response Answer) (cancelled : Finset RequestId) :
    Answering h m (es ++ [.answered req resp])
      { s with inHand := none, cancelled := cancelled } where
  proper := by
    rw [arrivals_append]
    simpa [arrivals] using hes.proper
  order := by
    rw [receipts_append, answers_append]
    have horder := hes.order
    rw [waiting_of_inHand hhand] at horder
    simpa [receipts, answers, MessageLoop.waiting] using horder
  applied := by
    rw [receipts_append]
    simpa [receipts] using hes.applied
  stopped hrunning := by
    have hwaiting := (hes.stopped hrunning).2.2
    rw [waiting_of_inHand hhand] at hwaiting
    cases hwaiting

/-- An event that neither brings a message nor answers a request. -/
theorem Answering.quiet (hes : Answering h m es s) (harrivals : arrivals [e] = [])
    (hreceipts : receipts [e] = []) (hanswers : answers [e] = [])
    (hwaiting : s'.waiting = s.waiting) (hmain : s'.main = s.main)
    (hstopped : s'.running = false → s'.connected = false ∧ s'.channel = [] ∧ s'.waiting = []) :
    Answering h m (es ++ [e]) s' where
  proper := by
    rw [arrivals_append, harrivals, List.append_nil]
    exact hes.proper
  order := by
    rw [receipts_append, answers_append, hreceipts, hanswers, List.append_nil, List.append_nil,
      hwaiting]
    exact hes.order
  applied := by
    rw [receipts_append, hreceipts, List.append_nil, hmain]
    exact hes.applied
  stopped := hstopped

theorem Answering.turn (hes : Answering h m es s)
    (hchannel : arrivals es = receipts es ++ s.channel) (hrunning : s.running)
    (hturning : Turning h s e s') : Answering h m (es ++ [e]) s' := by
  obtain ⟨hwaiting, hmsgs⟩ := hes.proper_received hchannel
  have harrivals : arrivals (es ++ [e]) = arrivals es := by
    rw [arrivals_append, hturning.channel.1, List.append_nil]
  cases hturning with
  | @received msg rest hhead =>
    have hproper := hmsgs msg (by rw [hhead]; exact List.mem_cons_self)
    obtain ⟨hwait, hmain, hrun⟩ := absorbMessage_proper (s := { s with channel := rest }) hproper
    have hlast : receipts [(.received msg : Event Json Answer)] = [msg] := rfl
    refine ⟨harrivals ▸ hes.proper, ?_, ?_, ?_⟩
    · rw [receipts_append, requests_append, answers_append, hes.order, hwait, hlast]
      simp [answers, MessageLoop.waiting]
    · rw [receipts_append, told_append, hmain, hlast, ← hes.applied]
    · intro hstopped
      exact absurd (hrunning.symm.trans (hrun.symm.trans hstopped)) nofun
  | @popped req rest hhand hpending =>
    have hsame : s.waiting = req :: rest := by
      rw [MessageLoop.waiting, hhand, hpending]
      rfl
    exact hes.quiet rfl rfl rfl hsame.symm rfl fun hstopped ↦
      absurd (hrunning.symm.trans hstopped) nofun
  | @shutdown req hhand hempty hshutdown =>
    exact absurd hshutdown (hwaiting req (by rw [waiting_of_inHand hhand]; simp)).1
  | cancelled hhand => exact hes.answered hhand _ _
  | replied hhand => exact hes.answered hhand _ _
  | @failed req hhand hempty hcancelled hfailed =>
    have haccepts := (hwaiting req (by rw [waiting_of_inHand hhand]; simp)).2
    obtain ⟨reply, hreply⟩ := routeRequest_isSome haccepts s.main
    rw [hfailed] at hreply
    cases hreply
  | ended hhand hpending hempty hconnected =>
    have hnone : s.waiting = [] := by
      rw [MessageLoop.waiting, hhand, hpending]
      rfl
    exact hes.quiet rfl rfl rfl rfl rfl fun _ ↦ ⟨hconnected, hempty, hnone⟩

theorem LoopRun.answering (hrun : LoopRun h m (Proper h) es s) : Answering h m es s := by
  induction hrun with
  | start => exact ⟨nofun, rfl, rfl, nofun⟩
  | @arrive es s hrun msg hconnected hallowed ih =>
    have hlast : receipts [(.arrived msg : Event Json Answer)] = [] := rfl
    have hnone : answers [(.arrived msg : Event Json Answer)] = [] := rfl
    refine ⟨?_, ?_, ?_, ?_⟩
    · intro other hother
      rw [arrivals_append] at hother
      rcases List.mem_append.mp hother with hold | hnew
      · exact ih.proper other hold
      · exact hallowed other (by rw [List.mem_singleton.mp hnew])
    · rw [receipts_append, answers_append, hlast, hnone, List.append_nil, List.append_nil]
      exact ih.order
    · rw [receipts_append, hlast, List.append_nil]
      exact ih.applied
    · intro hstopped
      exact absurd (hconnected.symm.trans (ih.stopped hstopped).1) nofun
  | hangUp hrun hallowed ih =>
    exact ih.quiet rfl rfl rfl rfl rfl fun hstopped ↦ ⟨rfl, (ih.stopped hstopped).2⟩
  | turn hrun hturn hallowed ih =>
    obtain ⟨hrunning, hturning⟩ := turning_of_turn hturn
    exact ih.turn hrun.channel hrunning hturning

/-! ### What an answer is computed from -/

/-- The response to a request from a state: it was cancelled, or it is what the handlers say. -/
def Answers (h : Handlers Json Answer) (m : MainLoop) (req : Request Json)
    (resp : Response Answer) : Prop :=
  resp.id = req.id ∧ (resp.reply = .cancelled ∨ routeRequest h m req = some resp.reply)

/-- Before each answer of a run there is a state whose turn it is. -/
theorem LoopRun.exists_turn_of_answered (hrun : LoopRun h m allowed es s)
    {before after : List (Event Json Answer)} {resp : Response Answer}
    (hes : es = before ++ .answered req resp :: after) :
    ∃ s₀ s₁, LoopRun h m allowed before s₀ ∧ s₀.turn h = some (.answered req resp, s₁) ∧
      allowed s₀ (.answered req resp) := by
  induction hrun generalizing after with
  | start => cases before <;> cases hes
  | arrive hrun msg hconnected hallowed ih =>
    rcases List.eq_nil_or_concat after with rfl | ⟨rest, last, rfl⟩
    · cases (List.append_inj' hes rfl).2
    · rw [List.concat_eq_append, ← List.cons_append, ← List.append_assoc] at hes
      exact ih (List.append_inj' hes rfl).1
  | hangUp hrun hallowed ih =>
    rcases List.eq_nil_or_concat after with rfl | ⟨rest, last, rfl⟩
    · cases (List.append_inj' hes rfl).2
    · rw [List.concat_eq_append, ← List.cons_append, ← List.append_assoc] at hes
      exact ih (List.append_inj' hes rfl).1
  | @turn es s s' e hrun hturn hallowed ih =>
    rcases List.eq_nil_or_concat after with rfl | ⟨rest, last, rfl⟩
    · obtain ⟨rfl, hlast⟩ := List.append_inj' hes rfl
      cases hlast
      exact ⟨s, s', hrun, hturn, hallowed⟩
    · rw [List.concat_eq_append, ← List.cons_append, ← List.append_assoc] at hes
      exact ih (List.append_inj' hes rfl).1

/-- Every notification that had arrived before a request was dispatched is applied to the state
that its answer is computed from. -/
theorem LoopRun.answers_fresh (hrun : LoopRun h m (Proper h) es s)
    {before after : List (Event Json Answer)} {resp : Response Answer}
    (hes : es = before ++ .answered req resp :: after) :
    Answers h (told m (arrivals before)) req resp := by
  obtain ⟨s₀, s₁, hbefore, hturn, -⟩ := hrun.exists_turn_of_answered hes
  have hanswering := hbefore.answering
  have hchannel := hbefore.channel
  have hproper := hanswering.proper_received hchannel
  obtain ⟨-, hturning⟩ := turning_of_turn hturn
  cases hturning with
  | shutdown hhand hempty hshutdown =>
    exact absurd hshutdown (hproper.1 req (by rw [waiting_of_inHand hhand]; simp)).1
  | cancelled => exact ⟨rfl, .inl rfl⟩
  | replied hhand hempty hshutdown hcancelled hreply =>
    rw [hempty, List.append_nil] at hchannel
    refine ⟨rfl, .inr ?_⟩
    rw [hchannel, ← hanswering.applied]
    exact hreply

/-! ### The loop comes to rest -/

/-- What the loop still has to do, when nothing arrives. -/
def MessageLoop.work (s : MessageLoop Json) : ℕ :=
  3 * s.channel.length + 2 * s.pending.length + s.inHand.toList.length + s.running.toNat

theorem absorbMessage_work_le : (s.absorbMessage msg).work ≤ s.work + 2 := by
  cases msg with
  | request req =>
    simp only [MessageLoop.absorbMessage, MessageLoop.work, List.length_append,
      List.length_singleton]
    omega
  | cancelRequest params =>
    simp only [MessageLoop.absorbMessage]
    split
    · exact Nat.le_add_right _ _
    · exact Nat.le_add_right _ _
  | notification note =>
    cases note with
    | none =>
      simp only [MessageLoop.absorbMessage, MessageLoop.work, Bool.toNat_false]
      omega
    | some note => exact Nat.le_add_right _ _
  | response => exact Nat.le_add_right _ _

theorem Turning.work_lt (hturning : Turning h s e s') (hrunning : s.running) :
    s'.work < s.work := by
  cases hturning with
  | @received msg rest hchannel =>
    have hle := @absorbMessage_work_le _ { s with channel := rest } msg
    have hlt : ({ s with channel := rest } : MessageLoop Json).work + 2 < s.work := by
      simp only [MessageLoop.work, hchannel, List.length_cons]
      omega
    omega
  | popped hhand hpending =>
    simp only [MessageLoop.work, hhand, hpending, Option.toList, List.length_cons, List.length_nil]
    omega
  | shutdown hhand | failed hhand =>
    simp only [MessageLoop.work, hhand, hrunning, Option.toList, List.length_cons,
      List.length_nil, Bool.toNat_true, Bool.toNat_false]
    omega
  | cancelled hhand | replied hhand =>
    simp only [MessageLoop.work, hhand, Option.toList, List.length_cons, List.length_nil]
    omega
  | ended hhand =>
    simp only [MessageLoop.work, hhand, hrunning, Option.toList, List.length_nil,
      Bool.toNat_true, Bool.toNat_false]
    omega

/-- Left to itself, the loop comes to rest. -/
theorem exists_turns_at_rest (h : Handlers Json Answer) (s : MessageLoop Json) :
    ∃ es s', Turns h s es s' ∧ s'.turn h = none := by
  induction hwork : s.work using Nat.strong_induction_on generalizing s with
  | _ work ih =>
    cases hturn : s.turn h with
    | none => exact ⟨[], s, .rest s, hturn⟩
    | some next =>
      obtain ⟨e, s'⟩ := next
      obtain ⟨hrunning, hturning⟩ := turning_of_turn hturn
      have hlt := hturning.work_lt hrunning
      obtain ⟨es, s'', hturns, hrest⟩ := ih s'.work (hwork ▸ hlt) s' rfl
      exact ⟨e :: es, s'', .turn hturn hturns, hrest⟩

theorem LoopRun.turns (hrun : LoopRun h m (Proper h) es s) {es' : List (Event Json Answer)}
    (hturns : Turns h s es' s') :
    LoopRun h m (Proper h) (es ++ es') s' ∧ arrivals (es ++ es') = arrivals es := by
  induction hturns generalizing es with
  | rest s =>
    rw [List.append_nil]
    exact ⟨hrun, rfl⟩
  | @turn s s' s'' e es' hturn hturns ih =>
    have hnone := (turning_of_turn hturn).2.channel.1
    have hproper : Proper h s e := by
      rintro msg rfl
      cases hnone
    obtain ⟨hlater, harrivals⟩ := ih (hrun.turn hturn hproper)
    rw [List.append_cons]
    refine ⟨hlater, harrivals.trans ?_⟩
    rw [arrivals_append, hnone, List.append_nil]

/-- At rest, every request that arrived is answered. -/
theorem LoopRun.answered_of_at_rest (hrun : LoopRun h m (Proper h) es s) (hrest : s.turn h = none) :
    (answers es).map Prod.fst = requests (arrivals es) := by
  have hanswering := hrun.answering
  obtain ⟨hchannel, hwaiting⟩ : s.channel = [] ∧ s.waiting = [] := by
    by_cases hrunning : s.running
    · exact at_rest_of_turn hrest hrunning
    · exact (hanswering.stopped (by simpa using hrunning)).2
  have horder := hanswering.order
  rw [hwaiting, List.append_nil] at horder
  rw [hrun.channel, hchannel, List.append_nil, horder]

end Order

/-! ### Examples of runs -/

section Examples

/-- Handlers that answer everything alike. -/
def alike : Handlers Unit Unit where
  definition _ := some fun _ ↦ ()
  hover _ := some fun _ ↦ ()
  diagnostic _ := some fun _ ↦ ()

def nothingLoaded : MainLoop where
  db := .empty
  files := ∅
  opened := ∅
  warned := []
  declarationsOnly := []

def hoverRequest : Request Unit := ⟨.number 1, "textDocument/hover", ()⟩

end Examples

end Loop

end Itaruby.Server
