import Itaruby.Server.State
import Mathlib.Logic.Relation

/-!
The message loop and the diagnostics worker side by side: what has been published for a document
when both are at rest, after any interleaving of their steps.
-/

set_option autoImplicit false
set_option relaxedAutoImplicit false

namespace Itaruby.Server

variable {D : Type}

/-! ### The two threads -/

/-- A `textDocument/publishDiagnostics`. -/
structure Publish (D : Type) where
  path : Path
  version : Option ℤ
  diagnostics : List D
deriving DecidableEq, Repr

/-- Where the diagnostics worker is: at its channel, on its way to the newest request, or at the
items of a request, with a message to send or without one. -/
inductive Worker (D : Type)
  | idle
  | coalescing (r : RecomputeRequest)
  | checking (r : RecomputeRequest) (rest : List Item)
  | publishing (r : RecomputeRequest) (message : Publish D) (rest : List Item)

/-- The two threads, the channel between them, and what has gone to the client.
`ignoredOpened` records for the reader that a new ignored file has been opened since the last
request; no step reads it. -/
structure World (D : Type) where
  main : MainLoop
  outbox : Option Outgoing
  queue : List RecomputeRequest
  worker : Worker D
  sent : List (Publish D)
  ignoredOpened : Bool

/-- The notification opens a file under an ignored path, for the first time. -/
def MainLoop.opensIgnored (m : MainLoop) : Notification → Bool
  | .didOpen (some path) _ _ true true => path ∉ m.files
  | _ => false

/-- The message for an item, from the inputs of the request. -/
def RecomputeRequest.answer (r : RecomputeRequest) (check : Inputs → SourceFile → List D)
    (item : Item) : Publish D :=
  ⟨item.path, some item.version, check r.inputs item.file⟩

namespace World

def start (ws : Workspace) : World D :=
  ⟨loadWorkspace ws, none, [], .idle, [], false⟩

/-- The message loop handles a notification. -/
def handle (w : World D) (n : Notification) : World D :=
  let (m, out) := w.main.handleNotification n
  { w with
    main := m
    outbox := out
    ignoredOpened :=
      match out with
      | some (.request _) => false
      | _ => w.ignoredOpened || w.main.opensIgnored n }

/-- The message loop sends what handling a notification calls for. -/
def emit (w : World D) : Outgoing → World D
  | .warning _ => { w with outbox := none }
  | .clear path => { w with outbox := none, sent := w.sent ++ [⟨path, none, []⟩] }
  | .request r => { w with outbox := none, queue := w.queue ++ [r] }

/-- Nothing is left to do but to wait for the client. -/
structure Quiet (w : World D) : Prop where
  outbox : w.outbox = none
  queue : w.queue = []
  worker : w.worker = .idle

end World

/-- One step of either thread. Setting an input cancels the computations on every snapshot of an
earlier revision; on a snapshot of the last revision they run to their end. -/
inductive Step (check : Inputs → SourceFile → List D) (allowed : Notification → Prop) :
    World D → World D → Prop
  | handle {w : World D} {n : Notification} (hn : allowed n) (hout : w.outbox = none) :
      Step check allowed w (w.handle n)
  | emit {w : World D} {out : Outgoing} (hout : w.outbox = some out) :
      Step check allowed w (w.emit out)
  | receive {w : World D} {r : RecomputeRequest} {queue : List RecomputeRequest}
      (hworker : w.worker = .idle) (hqueue : w.queue = r :: queue) :
      Step check allowed w { w with worker := .coalescing r, queue := queue }
  | coalesce {w : World D} {r newer : RecomputeRequest} {queue : List RecomputeRequest}
      (hworker : w.worker = .coalescing r) (hqueue : w.queue = newer :: queue) :
      Step check allowed w { w with worker := .coalescing newer, queue := queue }
  | start {w : World D} {r : RecomputeRequest}
      (hworker : w.worker = .coalescing r) (hqueue : w.queue = []) :
      Step check allowed w { w with worker := .checking r r.items }
  | compute {w : World D} {r : RecomputeRequest} {item : Item} {rest : List Item}
      (hworker : w.worker = .checking r (item :: rest))
      (hcurrent : r.revision = w.main.db.revision) :
      Step check allowed w { w with worker := .publishing r (r.answer check item) rest }
  | cancelled {w : World D} {r : RecomputeRequest} {item : Item} {rest : List Item}
      (hworker : w.worker = .checking r (item :: rest))
      (hstale : r.revision ≠ w.main.db.revision) :
      Step check allowed w { w with worker := .idle }
  | send {w : World D} {r : RecomputeRequest} {message : Publish D} {rest : List Item}
      (hworker : w.worker = .publishing r message rest) :
      Step check allowed w
        { w with worker := .checking r rest, sent := w.sent ++ [message] }
  | done {w : World D} {r : RecomputeRequest} (hworker : w.worker = .checking r []) :
      Step check allowed w { w with worker := .idle }

/-- Any interleaving of the steps of the two threads. -/
abbrev Run (check : Inputs → SourceFile → List D) (allowed : Notification → Prop) :
    World D → World D → Prop :=
  Relation.ReflTransGen (Step check allowed)

/-! ### The last message for a document -/

def lastOf (path : Path) (sent : List (Publish D)) : Option (Publish D) :=
  (sent.filter (·.path = path)).getLast?

/-- The last message for a document that the client has been sent. -/
def World.lastFor (w : World D) (path : Path) : Option (Publish D) := lastOf path w.sent

section Last

variable {path : Path} {sent : List (Publish D)} {message : Publish D}

theorem lastOf_append_of_eq (h : message.path = path) :
    lastOf path (sent ++ [message]) = some message := by
  simp [lastOf, h]

theorem lastOf_append_of_ne (h : message.path ≠ path) :
    lastOf path (sent ++ [message]) = lastOf path sent := by
  simp [lastOf, h]

/-- A message for another document, put in anywhere, is not the last for this one. -/
theorem lastOf_insert_of_ne (h : message.path ≠ path) (later : List (Publish D)) :
    lastOf path (sent ++ [message] ++ later) = lastOf path (sent ++ later) := by
  simp [lastOf, h]

theorem mem_of_lastOf (h : lastOf path sent = some message) :
    message ∈ sent ∧ message.path = path := by
  have hmem := List.mem_of_getLast? h
  simpa using hmem

/-- When all messages for a document are one message, it is the last. -/
theorem lastOf_append_of_forall {later : List (Publish D)} (hmem : message ∈ later)
    (hall : ∀ other ∈ later, other.path = message.path → other = message) :
    lastOf message.path (sent ++ later) = some message := by
  have hne : later.filter (·.path = message.path) ≠ [] :=
    List.ne_nil_of_mem (List.mem_filter.mpr ⟨hmem, by simp⟩)
  have hlast := List.getLast_mem hne
  obtain ⟨hin, hpath⟩ := List.mem_filter.mp hlast
  rw [lastOf, List.filter_append, List.getLast?_append, List.getLast?_eq_getLast_of_ne_nil hne,
    hall _ hin (by simpa using hpath)]
  rfl

end Last

/-! ### What a request asks for -/

/-- The item is an open document that is published, at its version. -/
structure MainLoop.Due (m : MainLoop) (item : Item) : Prop where
  opened : m.opened.lookup item.path = some item.version
  known : m.files.lookup item.path = some item.file
  published : item.path ∉ m.declarationsOnly

theorem MainLoop.mem_recompute_items {m : MainLoop} {item : Item} :
    item ∈ m.recompute.items ↔ m.Due item := by
  simp only [recompute, List.mem_filterMap]
  constructor
  · rintro ⟨⟨path, version⟩, hentry, hitem⟩
    split at hitem
    next => cases hitem
    next hpublished =>
      obtain ⟨file, hlookup, rfl⟩ := Option.map_eq_some_iff.mp hitem
      exact ⟨AList.mem_lookup_iff.mpr hentry, hlookup, hpublished⟩
  · intro h
    refine ⟨⟨item.path, item.version⟩, AList.mem_lookup_iff.mp h.opened, ?_⟩
    rw [if_neg h.published, h.known]
    rfl

theorem MainLoop.Due.eq_of_path {m : MainLoop} {item other : Item} (h : m.Due item)
    (hother : m.Due other) (hpath : other.path = item.path) : other = item := by
  obtain ⟨file, path, version⟩ := item
  obtain ⟨file', path', version'⟩ := other
  cases hpath
  cases Option.some.inj (h.opened.symm.trans hother.opened)
  cases Option.some.inj (h.known.symm.trans hother.known)
  rfl

/-- A request that asks for all that is due, of the inputs as they are. -/
structure RecomputeRequest.Serves (r : RecomputeRequest) (m : MainLoop) : Prop where
  inputs : r.inputs = m.db.inputs
  revision : r.revision = m.db.revision
  items : ∀ item, m.Due item →
    item ∈ r.items ∧ ∀ other ∈ r.items, other.path = item.path → other = item

theorem MainLoop.recompute_serves (m : MainLoop) : m.recompute.Serves m where
  inputs := rfl
  revision := rfl
  items _ h := ⟨mem_recompute_items.mpr h, fun _ hother hpath ↦
    h.eq_of_path (mem_recompute_items.mp hother) hpath⟩

/-- Closing a document leaves less to serve. -/
theorem MainLoop.Due.of_close {m : MainLoop} {path : Path} {item : Item}
    (h : Due { m with opened := m.opened.erase path } item) : m.Due item ∧ item.path ≠ path := by
  have hne : item.path ≠ path := by
    intro heq
    have hopened := h.opened
    rw [heq, AList.lookup_erase] at hopened
    cases hopened
  refine ⟨⟨?_, h.known, h.published⟩, hne⟩
  rw [← AList.lookup_erase_ne hne]
  exact h.opened

/-! ### Convergence -/

namespace Worker

/-- The requests that the worker has taken and not begun. -/
def taken : Worker D → List RecomputeRequest
  | .coalescing r => [r]
  | _ => []

/-- The request that the worker is busy with. -/
def request : Worker D → Option RecomputeRequest
  | .checking r _ | .publishing r _ _ => some r
  | _ => none

/-- The messages that the worker has still to send, unless it is cancelled. -/
def pending (check : Inputs → SourceFile → List D) : Worker D → List (Publish D)
  | .checking r rest => rest.map (r.answer check)
  | .publishing r message rest => message :: rest.map (r.answer check)
  | _ => []

end Worker

/-- The request that is about to be put in the channel. -/
def Outgoing.requests : Option Outgoing → List RecomputeRequest
  | some (.request r) => [r]
  | _ => []

/-- The requests that the worker has not begun, the newest last. -/
def World.waiting (w : World D) : List RecomputeRequest :=
  w.worker.taken ++ w.queue ++ Outgoing.requests w.outbox

/-- Every document that is due has been sent what its inputs give as its last message. -/
def World.Converged (w : World D) (check : Inputs → SourceFile → List D) : Prop :=
  ∀ path version file, w.main.opened.lookup path = some version →
    w.main.files.lookup path = some file → path ∉ w.main.declarationsOnly →
    w.lastFor path = some ⟨path, some version, check w.main.db.inputs file⟩

/-- Every document that is due is served by the newest request that waits, or else by what the
worker sends. -/
structure World.Serving (w : World D) (check : Inputs → SourceFile → List D) : Prop where
  cleared : ∀ path, w.outbox = some (.clear path) → ∀ item, w.main.Due item → item.path ≠ path
  newest : ∀ r, w.waiting.getLast? = some r → r.Serves w.main
  current : w.waiting = [] → ∀ r, w.worker.request = some r → r.revision = w.main.db.revision
  pending : w.waiting = [] → ∀ item, w.main.Due item →
    lastOf item.path (w.sent ++ w.worker.pending check) =
      some ⟨item.path, some item.version, check w.main.db.inputs item.file⟩

section Converge

variable {check : Inputs → SourceFile → List D} {w w' : World D} {n : Notification}

theorem RecomputeRequest.Serves.of_due {r : RecomputeRequest} {m m' : MainLoop}
    (h : r.Serves m) (hdb : m'.db = m.db) (hdue : ∀ item, m'.Due item → m.Due item) :
    r.Serves m' := by
  refine ⟨?_, ?_, fun item hitem ↦ h.items item (hdue item hitem)⟩
  · rw [hdb]
    exact h.inputs
  · rw [hdb]
    exact h.revision

/-- While the inputs stay and less is due, what was served is served. -/
theorem World.Serving.keep (h : w.Serving check) {m : MainLoop} {out : Option Outgoing}
    {opened : Bool} (hout : w.outbox = none) (hdb : m.db = w.main.db)
    (hdue : ∀ item, m.Due item → w.main.Due item) (hrequests : Outgoing.requests out = [])
    (hcleared : ∀ path, out = some (.clear path) → ∀ item, m.Due item → item.path ≠ path) :
    World.Serving { w with main := m, outbox := out, ignoredOpened := opened } check := by
  have hwaiting : World.waiting { w with main := m, outbox := out, ignoredOpened := opened } =
      w.waiting := by
    simp only [World.waiting, hrequests, hout]
    rfl
  refine ⟨hcleared, ?_, ?_, ?_⟩
  · intro r hr
    rw [hwaiting] at hr
    exact (h.newest r hr).of_due hdb hdue
  · intro hempty r hr
    rw [hwaiting] at hempty
    rw [hdb]
    exact h.current hempty r hr
  · intro hempty item hitem
    rw [hwaiting] at hempty
    rw [hdb]
    exact h.pending hempty item (hdue item hitem)

/-- A new request serves all that is due. -/
theorem World.serving_request {m : MainLoop} {opened : Bool} :
    World.Serving { w with
      main := m
      outbox := some (.request m.recompute)
      ignoredOpened := opened } check := by
  have hlast : ∀ r, r ∈ (w.worker.taken ++ w.queue ++ [m.recompute]).getLast? →
      r = m.recompute := by
    intro r hr
    rw [List.getLast?_append] at hr
    exact (Option.mem_some_iff.mp hr).symm
  have hne : w.worker.taken ++ w.queue ++ [m.recompute] ≠ [] := by simp
  refine ⟨nofun, fun r hr ↦ ?_, fun hempty ↦ absurd hempty hne, fun hempty ↦ absurd hempty hne⟩
  rw [hlast r hr]
  exact m.recompute_serves

/-- Every notification that sets an input asks for a recompute, but for the opening of a new
ignored file. -/
theorem World.serving_handle (h : w.ignoredOpened = false → w.Serving check)
    (hout : w.outbox = none) (hfresh : (w.handle n).ignoredOpened = false) :
    (w.handle n).Serving check := by
  have hhandling := w.main.handling n
  revert hfresh
  simp only [World.handle]
  generalize (w.main.handleNotification n).1 = m at hhandling ⊢
  generalize (w.main.handleNotification n).2 = out at hhandling ⊢
  intro hfresh
  cases hhandling with
  | opened | openedNew | changed => exact serving_request
  | unchanged =>
    exact (h (Bool.or_eq_false_iff.mp hfresh).1).keep hout rfl (fun _ ↦ id) rfl nofun
  | warned =>
    refine (h (Bool.or_eq_false_iff.mp hfresh).1).keep hout rfl ?_ rfl nofun
    exact fun item hitem ↦ ⟨hitem.opened, hitem.known, hitem.published⟩
  | closed =>
    refine (h (Bool.or_eq_false_iff.mp hfresh).1).keep hout rfl (fun _ hitem ↦ hitem.of_close.1)
      rfl ?_
    intro path hpath item hitem
    cases hpath
    exact hitem.of_close.2
  | openedIgnored hnew =>
    have hopens := (Bool.or_eq_false_iff.mp hfresh).2
    exact absurd hnew (of_decide_eq_false hopens)

theorem World.serving_emit {out : Outgoing} (h : w.Serving check) (hout : w.outbox = some out) :
    (w.emit out).Serving check := by
  cases out with
  | warning path =>
    have hwaiting : (w.emit (.warning path)).waiting = w.waiting := by
      simp only [World.waiting, hout]
      rfl
    exact ⟨nofun, hwaiting ▸ h.newest, hwaiting ▸ h.current, hwaiting ▸ h.pending⟩
  | request r =>
    have hwaiting : (w.emit (.request r)).waiting = w.waiting := by
      simp [World.waiting, World.emit, hout, Outgoing.requests]
    exact ⟨nofun, hwaiting ▸ h.newest, hwaiting ▸ h.current, hwaiting ▸ h.pending⟩
  | clear path =>
    have hwaiting : (w.emit (.clear path)).waiting = w.waiting := by
      simp only [World.waiting, hout]
      rfl
    refine ⟨nofun, hwaiting ▸ h.newest, hwaiting ▸ h.current, fun hempty item hitem ↦ ?_⟩
    rw [hwaiting] at hempty
    change lastOf item.path (w.sent ++ [⟨path, none, []⟩] ++ w.worker.pending check) = _
    rw [lastOf_insert_of_ne (h.cleared path hout item hitem).symm]
    exact h.pending hempty item hitem

/-- The worker goes on with its request. -/
theorem World.Serving.work (h : w.Serving check) {worker : Worker D} {sent : List (Publish D)}
    (htaken : worker.taken = w.worker.taken)
    (hrequest : ∀ r, worker.request = some r → w.worker.request = some r)
    (hpending : sent ++ worker.pending check = w.sent ++ w.worker.pending check) :
    World.Serving { w with worker := worker, sent := sent } check := by
  have hwaiting : World.waiting { w with worker := worker, sent := sent } = w.waiting := by
    simp only [World.waiting, htaken]
  refine ⟨h.cleared, hwaiting ▸ h.newest, fun hempty r hr ↦ ?_, fun hempty item hitem ↦ ?_⟩
  · exact h.current (hwaiting ▸ hempty) r (hrequest r hr)
  · change lastOf item.path (sent ++ worker.pending check) = _
    rw [hpending]
    exact h.pending (hwaiting ▸ hempty) item hitem

/-- While a request waits, only the newest counts. -/
theorem World.serving_of_newest (hcleared : ∀ path, w.outbox = some (.clear path) →
    ∀ item, w.main.Due item → item.path ≠ path) (hne : w.waiting ≠ [])
    (hnewest : ∀ r, w.waiting.getLast? = some r → r.Serves w.main) : w.Serving check :=
  ⟨hcleared, hnewest, fun hempty ↦ absurd hempty hne, fun hempty ↦ absurd hempty hne⟩

/-- The worker begins with the newest request there is; one that is being sent is newer. -/
theorem World.Serving.begin {r : RecomputeRequest} (h : w.Serving check)
    (hworker : w.worker = .coalescing r) (hqueue : w.queue = []) :
    World.Serving { w with worker := .checking r r.items } check := by
  have hbefore : w.waiting = r :: Outgoing.requests w.outbox := by
    simp [World.waiting, hworker, hqueue, Worker.taken]
  have hafter : World.waiting { w with worker := .checking r r.items } =
      Outgoing.requests w.outbox := by
    simp [World.waiting, hqueue, Worker.taken]
  cases hout : Outgoing.requests w.outbox with
  | cons newer later =>
    rw [hout] at hbefore hafter
    refine serving_of_newest h.cleared (by simp [hafter]) fun last hlast ↦ ?_
    rw [hafter] at hlast
    exact h.newest last (by rw [hbefore, List.getLast?_cons_cons, hlast])
  | nil =>
    rw [hout] at hbefore hafter
    have hserves : r.Serves w.main := h.newest r (by rw [hbefore]; rfl)
    refine ⟨h.cleared, fun last hlast ↦ ?_, fun _ other hother ↦ ?_, fun _ item hitem ↦ ?_⟩
    · rw [hafter] at hlast
      cases hlast
    · cases hother
      exact hserves.revision
    · obtain ⟨hmem, hall⟩ := hserves.items item hitem
      rw [← hserves.inputs]
      have hanswer : r.answer check item ∈ r.items.map (r.answer check) :=
        List.mem_map_of_mem hmem
      refine lastOf_append_of_forall hanswer fun other hother hpath ↦ ?_
      obtain ⟨another, hanother, rfl⟩ := List.mem_map.mp hother
      rw [hall another hanother hpath]

/-- Every step keeps what is served. -/
theorem World.Serving.step {allowed : Notification → Prop} (hstep : Step check allowed w w')
    (h : w.ignoredOpened = false → w.Serving check) :
    w'.ignoredOpened = false → w'.Serving check := by
  intro hfresh
  cases hstep with
  | handle _ hout => exact serving_handle h hout hfresh
  | @emit out hout =>
    refine serving_emit (h ?_) hout
    cases out
    all_goals exact hfresh
  | @receive r queue hworker hqueue =>
    have hwaiting : w.waiting =
        World.waiting { w with worker := .coalescing r, queue := queue } := by
      simp [World.waiting, hworker, hqueue, Worker.taken]
    exact serving_of_newest (h hfresh).cleared (by simp [World.waiting, Worker.taken])
      fun last hlast ↦ (h hfresh).newest last (hwaiting ▸ hlast)
  | @coalesce r newer queue hworker hqueue =>
    have hwaiting : w.waiting =
        r :: World.waiting { w with worker := .coalescing newer, queue := queue } := by
      simp [World.waiting, hworker, hqueue, Worker.taken]
    refine serving_of_newest (h hfresh).cleared (by simp [World.waiting, Worker.taken])
      fun last hlast ↦ (h hfresh).newest last ?_
    rw [hwaiting, List.getLast?_cons, hlast]
    rfl
  | start hworker hqueue => exact (h hfresh).begin hworker hqueue
  | compute hworker _ =>
    refine (h hfresh).work ?_ (fun r hr ↦ ?_) ?_
    all_goals rw [hworker]
    all_goals first | rfl | exact hr
  | @cancelled r item rest hworker hstale =>
    have hserving := h hfresh
    have hwaiting : World.waiting { w with worker := .idle } = w.waiting := by
      simp [World.waiting, hworker, Worker.taken]
    have hne : w.waiting ≠ [] := fun hempty ↦
      hstale (hserving.current hempty r (by rw [hworker]; rfl))
    exact serving_of_newest hserving.cleared (by rwa [hwaiting]) (hwaiting ▸ hserving.newest)
  | send hworker =>
    refine (h hfresh).work ?_ (fun r hr ↦ ?_) ?_
    all_goals rw [hworker]
    all_goals first | rfl | exact hr | exact List.append_assoc ..
  | done hworker =>
    refine (h hfresh).work ?_ nofun ?_
    all_goals
      rw [hworker]
      rfl

theorem World.serving_start (ws : Workspace) : (start ws : World D).Serving check :=
  ⟨nofun, nofun, nofun, fun _ _ hitem ↦ absurd hitem.opened nofun⟩

theorem World.serving_of_run {allowed : Notification → Prop} {ws : Workspace}
    (hrun : Run check allowed (start ws) w) : w.ignoredOpened = false → w.Serving check := by
  induction hrun with
  | refl => exact fun _ ↦ serving_start ws
  | tail _ hstep ih => exact World.Serving.step hstep ih

/-- When both threads are at rest, the last diagnostics of every open document are those of the
inputs as they are, unless a new ignored file has been opened since the last request. -/
theorem World.converged_of_run {ws : Workspace} (hrun : Run check (fun _ ↦ True) (start ws) w)
    (hquiet : w.Quiet) (hfresh : w.ignoredOpened = false) : w.Converged check := by
  intro path version file hopened hknown hpublished
  have hpending := (serving_of_run hrun hfresh).pending
    (by simp [World.waiting, hquiet.outbox, hquiet.queue, hquiet.worker, Worker.taken,
      Outgoing.requests]) ⟨file, path, version⟩ ⟨hopened, hknown, hpublished⟩
  rwa [hquiet.worker, show (Worker.idle : Worker D).pending check = [] from rfl,
    List.append_nil] at hpending

end Converge

/-! ### A document that does not parse -/

section Unparsed

/-- A project with an ignored file. -/
def vendored : Workspace where
  discovered := ["/app/user.rb", "/app/vendor/gem.rb"]
  read _ := some ""
  ignored path := path == "/app/vendor/gem.rb"
  declarationsOnly := []
  readSchema _ := none

/-- The diagnostics of an unclosed parenthesis, and of the other texts here. -/
def unclosed (inputs : Inputs) (file : SourceFile) : List String :=
  if inputs.texts file.id = some "(" then ["E0001"] else []

/-- The parenthesis has been opened, and the worker is about to check it. -/
def unparsed : World String :=
  let w := (World.start vendored).handle (.didOpen (some "/app/user.rb") 1 "(" true false)
  { w with outbox := none, worker := .checking w.main.recompute w.main.recompute.items }

theorem run_unparsed : Run unclosed (fun _ ↦ True) (.start vendored) unparsed := by
  let w := (World.start vendored : World String).handle
    (.didOpen (some "/app/user.rb") 1 "(" true false)
  have hemitted : Run unclosed (fun _ ↦ True) (.start vendored)
      (w.emit (.request w.main.recompute)) :=
    .tail (.single (.handle trivial rfl)) (.emit rfl)
  exact .tail (.tail hemitted (.receive rfl rfl)) (.start rfl rfl)

theorem worker_unparsed : unparsed.worker =
    .checking unparsed.main.recompute [⟨⟨0, "/app/user.rb"⟩, "/app/user.rb", 1⟩] := rfl

/-- The worker checks the document that it was about to check, and is at rest. -/
def published : World String :=
  { unparsed with
    worker := .idle
    sent := [⟨"/app/user.rb", some 1, ["E0001"]⟩] }

theorem run_published : Run unclosed (fun _ ↦ True) (.start vendored) published := by
  have hcomputed := run_unparsed.tail (.compute worker_unparsed rfl)
  exact .tail (.tail hcomputed (.send rfl)) (.done rfl)

theorem published_converged : published.Converged unclosed :=
  World.converged_of_run run_published ⟨rfl, rfl, rfl⟩ rfl

/-- Opening a new file under the ignored directory cancels the worker, and asks for nothing. -/
theorem ignored_opening_not_converged : ¬ ∀ (ws : Workspace) (w : World String),
    Run unclosed (fun _ ↦ True) (.start ws) w → w.Quiet → w.Converged unclosed := by
  intro h
  have hopened := run_unparsed.tail
    (.handle (n := .didOpen (some "/app/vendor/new.rb") 1 "" true true) trivial rfl)
  have hcancelled := hopened.tail (.cancelled worker_unparsed (by decide))
  have hlast := h vendored _ hcancelled ⟨rfl, rfl, rfl⟩ "/app/user.rb" 1 ⟨0, "/app/user.rb"⟩
    rfl rfl (by decide)
  cases hlast

end Unparsed

end Itaruby.Server
