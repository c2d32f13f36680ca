import Itaruby.Server.Publishing

/-!
The last diagnostics of a document that has been closed: the message loop clears them, and the
worker may still hold a request from before.
-/

set_option autoImplicit false
set_option relaxedAutoImplicit false

namespace Itaruby.Server

variable {D : Type}

/-- A request with the items of it that are still to be checked. -/
structure Job where
  request : RecomputeRequest
  rest : List Item

/-- A request that has not been begun. -/
def RecomputeRequest.job (r : RecomputeRequest) : Job := ⟨r, r.items⟩

namespace Worker

def jobs : Worker D → List Job
  | .idle => []
  | .coalescing r => [r.job]
  | .checking r rest | .publishing r _ rest => [⟨r, rest⟩]

/-- The message that the worker is about to send. -/
def message : Worker D → Option (Publish D)
  | .publishing _ message _ => some message
  | _ => none

end Worker

namespace World

def jobs (w : World D) : List Job :=
  w.worker.jobs ++ (w.queue ++ Outgoing.requests w.outbox).map RecomputeRequest.job

/-- Whatever the worker would still send for the document is empty. -/
structure Harmless (w : World D) (check : Inputs → SourceFile → List D) (path : Path) : Prop where
  jobs : ∀ job ∈ w.jobs, job.request.revision = w.main.db.revision →
    ∀ item ∈ job.rest, item.path = path → check job.request.inputs item.file = []
  message : ∀ message ∈ w.worker.message, message.path = path → message.diagnostics = []

/-- Only files that are known are open, checked and published, and no snapshot is newer than the
database. -/
structure Known (w : World D) : Prop where
  opened : ∀ path ∈ w.main.opened, path ∈ w.main.files
  cleared : ∀ path, w.outbox = some (.clear path) → path ∈ w.main.files
  revision : ∀ job ∈ w.jobs, job.request.revision ≤ w.main.db.revision
  checked : ∀ job ∈ w.jobs, ∀ item ∈ job.rest, item.path ∈ w.main.files
  message : ∀ message ∈ w.worker.message, message.path ∈ w.main.files
  sent : ∀ message ∈ w.sent, message.path ∈ w.main.files

end World

/-! ### What a notification keeps -/

section Handle

variable {m m' : MainLoop} {n : Notification} {out : Option Outgoing} {path : Path}

theorem Db.le_setProject (db : Db) (files : List SourceFile) :
    db.revision ≤ (db.setProject files).revision := by
  simp only [setProject]
  split <;> omega

theorem Db.le_setIgnored (db : Db) (files : List SourceFile) :
    db.revision ≤ (db.setIgnored files).revision := by
  simp only [setIgnored]
  split <;> omega

theorem MainLoop.Handling.revision_le (h : m.Handling n m' out) :
    m.db.revision ≤ m'.db.revision := by
  cases h with
  | unchanged | warned | closed => exact Nat.le_refl _
  | opened | changed => exact Nat.le_succ _
  | @openedIgnored path _ text => exact Db.le_setIgnored (m.db.newFile path text).1 _
  | @openedNew path _ text => exact Db.le_setProject (m.db.newFile path text).1 _

theorem MainLoop.Handling.files_kept (h : m.Handling n m' out) (hpath : path ∈ m.files) :
    path ∈ m'.files := by
  cases h with
  | unchanged | warned | closed | opened | changed | openedIgnored => exact hpath
  | openedNew => exact (AList.mem_insert _).mpr (.inr hpath)

theorem MainLoop.Handling.opened_known (h : m.Handling n m' out)
    (hknown : ∀ path ∈ m.opened, path ∈ m.files) (hpath : path ∈ m'.opened) :
    path ∈ m'.files := by
  cases h with
  | unchanged | warned | openedIgnored => exact hknown path hpath
  | closed => exact hknown path (AList.mem_erase.mp hpath).2
  | opened hlookup | changed _ hlookup =>
    rcases (AList.mem_insert _).mp hpath with rfl | hold
    · exact (AList.lookup_isSome (s := m.files)).mp (by rw [hlookup]; rfl)
    · exact hknown path hold
  | openedNew =>
    refine (AList.mem_insert _).mpr ?_
    exact ((AList.mem_insert _).mp hpath).imp_right (hknown path)

/-- What a notification sends: a request for the state that it leaves, the end of a document that
is known, or a warning. -/
theorem MainLoop.Handling.sends {sent : Outgoing} (h : m.Handling n m' (some sent)) :
    sent = .request m'.recompute ∨ (∃ path ∈ m'.files, sent = .clear path) ∨
      ∃ path, sent = .warning path := by
  cases h with
  | opened | openedNew | changed => exact .inl rfl
  | closed hknown => exact .inr (.inl ⟨_, hknown, rfl⟩)
  | warned => exact .inr (.inr ⟨_, rfl⟩)

end Handle

/-! ### What a step does -/

section Steps

variable {check : Inputs → SourceFile → List D} {allowed : Notification → Prop}
  {w w' : World D} {n : Notification} {path : Path}

/-- A step that handles no notification: the worker has no job that it did not have, and sends a
message only after computing it; a document is cleared when the message loop sends it. -/
structure World.Goes (w w' : World D) (check : Inputs → SourceFile → List D) : Prop where
  main : w'.main = w.main
  jobs : ∀ job ∈ w'.jobs, ∃ former ∈ w.jobs, job.request = former.request ∧
    job.rest ⊆ former.rest
  message : ∀ message ∈ w'.worker.message, message ∈ w.worker.message ∨
    ∃ job ∈ w.jobs, job.request.revision = w.main.db.revision ∧
      ∃ item ∈ job.rest, message = job.request.answer check item
  outbox : ∀ path, w'.outbox = some (.clear path) → w.outbox = some (.clear path)
  sent : w'.sent = w.sent ∧ (∀ path, w.outbox = some (.clear path) → w'.outbox = w.outbox) ∨
    (∃ message ∈ w.worker.message, w'.sent = w.sent ++ [message]) ∧ w'.outbox = w.outbox ∨
    ∃ path, w.outbox = some (.clear path) ∧ w'.sent = w.sent ++ [⟨path, none, []⟩]

/-- A step of the worker that sends nothing. -/
theorem World.goes_quietly {worker : Worker D} {queue : List RecomputeRequest}
    (hjobs : ∀ job ∈ worker.jobs ++ queue.map RecomputeRequest.job,
      ∃ former ∈ w.worker.jobs ++ w.queue.map RecomputeRequest.job,
        job.request = former.request ∧ job.rest ⊆ former.rest)
    (hmessage : ∀ message ∈ worker.message, message ∈ w.worker.message ∨
      ∃ job ∈ w.worker.jobs, job.request.revision = w.main.db.revision ∧
        ∃ item ∈ job.rest, message = job.request.answer check item) :
    w.Goes { w with worker := worker, queue := queue } check where
  main := rfl
  outbox _ := id
  sent := .inl ⟨rfl, fun _ _ ↦ rfl⟩
  jobs job hjob := by
    simp only [World.jobs, List.map_append, ← List.append_assoc] at hjob ⊢
    rcases List.mem_append.mp hjob with hjob | hjob
    · obtain ⟨former, hformer, hsame⟩ := hjobs job hjob
      exact ⟨former, List.mem_append_left _ hformer, hsame⟩
    · exact ⟨job, List.mem_append_right _ hjob, rfl, List.Subset.refl _⟩
  message message hm := by
    refine (hmessage message hm).imp_right ?_
    rintro ⟨job, hjob, hrest⟩
    exact ⟨job, List.mem_append_left _ hjob, hrest⟩

theorem World.goes_emit {out : Outgoing} (hout : w.outbox = some out) :
    w.Goes (w.emit out) check := by
  have hempty : (w.emit out).outbox = none := by
    cases out <;> rfl
  have hkept : ∀ path, (w.emit out).outbox = some (.clear path) →
      w.outbox = some (.clear path) := fun path h ↦
    absurd (h.symm.trans hempty) (Option.some_ne_none _)
  cases out with
  | warning path =>
    have hjobs : (w.emit (.warning path)).jobs = w.jobs := by
      simp only [World.jobs, hout]
      rfl
    exact ⟨rfl, fun job hjob ↦ ⟨job, hjobs ▸ hjob, rfl, List.Subset.refl _⟩, fun _ ↦ .inl, hkept,
      .inl ⟨rfl, fun path hpath ↦ by rw [hout] at hpath; cases hpath⟩⟩
  | clear path =>
    have hjobs : (w.emit (.clear path)).jobs = w.jobs := by
      simp only [World.jobs, hout]
      rfl
    exact ⟨rfl, fun job hjob ↦ ⟨job, hjobs ▸ hjob, rfl, List.Subset.refl _⟩, fun _ ↦ .inl, hkept,
      .inr (.inr ⟨path, hout, rfl⟩)⟩
  | request r =>
    have hjobs : (w.emit (.request r)).jobs = w.jobs := by
      simp [World.jobs, World.emit, hout, Outgoing.requests]
    exact ⟨rfl, fun job hjob ↦ ⟨job, hjobs ▸ hjob, rfl, List.Subset.refl _⟩, fun _ ↦ .inl, hkept,
      .inl ⟨rfl, fun path hpath ↦ by rw [hout] at hpath; cases hpath⟩⟩

theorem Step.goes (h : Step check allowed w w') :
    (∃ n, allowed n ∧ w.outbox = none ∧ w' = w.handle n) ∨ w.Goes w' check := by
  cases h with
  | handle hn hout => exact .inl ⟨_, hn, hout, rfl⟩
  | emit hout => exact .inr (World.goes_emit hout)
  | receive hworker hqueue =>
    refine .inr (World.goes_quietly (fun job hjob ↦ ⟨job, ?_, rfl, List.Subset.refl _⟩) nofun)
    rw [hworker, hqueue]
    exact hjob
  | coalesce hworker hqueue =>
    refine .inr (World.goes_quietly (fun job hjob ↦ ⟨job, ?_, rfl, List.Subset.refl _⟩) nofun)
    rw [hworker, hqueue]
    exact List.mem_cons_of_mem _ hjob
  | start hworker hqueue =>
    refine .inr (World.goes_quietly (fun job hjob ↦ ⟨job, ?_, rfl, List.Subset.refl _⟩) nofun)
    rw [hworker]
    exact hjob
  | @compute r item rest hworker hcurrent =>
    refine .inr (World.goes_quietly (fun job hjob ↦ ?_) fun message hm ↦ .inr ?_)
    · rw [hworker]
      rcases List.mem_cons.mp hjob with rfl | hjob
      · exact ⟨⟨r, item :: rest⟩, List.mem_cons_self, rfl, List.subset_cons_self item rest⟩
      · exact ⟨job, List.mem_cons_of_mem _ hjob, rfl, List.Subset.refl _⟩
    · cases hm
      rw [hworker]
      exact ⟨⟨r, item :: rest⟩, List.mem_cons_self, hcurrent, item, List.mem_cons_self, rfl⟩
  | cancelled hworker hstale =>
    refine .inr (World.goes_quietly (fun job hjob ↦ ⟨job, ?_, rfl, List.Subset.refl _⟩) nofun)
    exact List.mem_append_right _ hjob
  | @send r message rest hworker =>
    have hjobs : World.jobs { w with
        worker := .checking r rest
        sent := w.sent ++ [message] } = w.jobs := by
      simp only [World.jobs, hworker]
      rfl
    refine .inr ⟨rfl, fun job hjob ↦ ⟨job, hjobs ▸ hjob, rfl, List.Subset.refl _⟩, nofun,
      fun _ ↦ id, .inr (.inl ⟨⟨message, ?_, rfl⟩, rfl⟩)⟩
    rw [hworker]
    rfl
  | done hworker =>
    refine .inr (World.goes_quietly (fun job hjob ↦ ⟨job, ?_, rfl, List.Subset.refl _⟩) nofun)
    exact List.mem_append_right _ hjob

theorem World.handling (w : World D) (n : Notification) :
    w.main.Handling n (w.handle n).main (w.handle n).outbox := w.main.handling n

/-- The jobs after a notification are those before, and what it asks for. -/
theorem World.mem_jobs_handle {job : Job} (hout : w.outbox = none)
    (hjob : job ∈ (w.handle n).jobs) :
    job ∈ w.jobs ∨ (w.handle n).outbox = some (.request (w.handle n).main.recompute) ∧
      job = (w.handle n).main.recompute.job := by
  have hbefore : w.jobs = w.worker.jobs ++ w.queue.map RecomputeRequest.job := by
    simp [World.jobs, hout, Outgoing.requests]
  have hafter : (w.handle n).jobs = w.jobs ++
      (Outgoing.requests (w.handle n).outbox).map RecomputeRequest.job := by
    rw [hbefore, World.jobs, List.map_append, ← List.append_assoc]
    rfl
  rw [hafter] at hjob
  rcases List.mem_append.mp hjob with hold | hnew
  · exact .inl hold
  · refine .inr ?_
    have hhandling := w.handling n
    cases hsent : (w.handle n).outbox with
    | none =>
      rw [hsent] at hnew
      cases hnew
    | some sent =>
      rw [hsent] at hnew hhandling
      rcases hhandling.sends with rfl | ⟨path, -, rfl⟩ | ⟨path, rfl⟩
      · exact ⟨rfl, List.mem_singleton.mp hnew⟩
      · cases hnew
      · cases hnew

/-! ### What every run keeps -/

theorem World.Known.handle (h : w.Known) (hout : w.outbox = none) : (w.handle n).Known := by
  have hhandling := w.handling n
  have hfiles : ∀ path ∈ w.main.files, path ∈ (w.handle n).main.files := fun _ ↦
    hhandling.files_kept
  refine ⟨fun _ ↦ hhandling.opened_known h.opened, fun path hpath ↦ ?_, fun job hjob ↦ ?_,
    fun job hjob item hitem ↦ ?_, fun message hm ↦ hfiles _ (h.message message hm),
    fun message hm ↦ hfiles _ (h.sent message hm)⟩
  · rw [hpath] at hhandling
    rcases hhandling.sends with hsame | ⟨other, hknown, hsame⟩ | ⟨other, hsame⟩
    · cases hsame
    · cases hsame
      exact hknown
    · cases hsame
  · rcases mem_jobs_handle hout hjob with hold | ⟨-, rfl⟩
    · exact Nat.le_trans (h.revision job hold) hhandling.revision_le
    · exact Nat.le_refl _
  · rcases mem_jobs_handle hout hjob with hold | ⟨-, rfl⟩
    · exact hfiles _ (h.checked job hold item hitem)
    · have hdue := MainLoop.mem_recompute_items.mp hitem
      exact AList.lookup_isSome.mp (by rw [hdue.known]; rfl)

theorem World.Known.goes (h : w.Known) (hgoes : w.Goes w' check) : w'.Known := by
  constructor
  all_goals rw [hgoes.main]
  · exact h.opened
  · exact fun path hpath ↦ h.cleared path (hgoes.outbox path hpath)
  · intro job hjob
    obtain ⟨former, hformer, hrequest, -⟩ := hgoes.jobs job hjob
    rw [hrequest]
    exact h.revision former hformer
  · intro job hjob item hitem
    obtain ⟨former, hformer, -, hrest⟩ := hgoes.jobs job hjob
    exact h.checked former hformer item (hrest hitem)
  · intro message hm
    rcases hgoes.message message hm with hold | ⟨job, hjob, -, item, hitem, rfl⟩
    · exact h.message message hold
    · exact h.checked job hjob item hitem
  · intro message hm
    rcases hgoes.sent with ⟨hsent, -⟩ | ⟨⟨last, hlast, hsent⟩, -⟩ | ⟨path, hpath, hsent⟩
    all_goals rw [hsent] at hm
    · exact h.sent message hm
    · rcases List.mem_append.mp hm with hold | hnew
      · exact h.sent message hold
      · rw [List.mem_singleton.mp hnew]
        exact h.message last hlast
    · rcases List.mem_append.mp hm with hold | hnew
      · exact h.sent message hold
      · rw [List.mem_singleton.mp hnew]
        exact h.cleared path hpath

theorem World.Known.step (h : w.Known) (hstep : Step check allowed w w') : w'.Known := by
  rcases hstep.goes with ⟨n, -, hout, rfl⟩ | hgoes
  · exact h.handle hout
  · exact h.goes hgoes

theorem World.known_start (ws : Workspace) : (start ws : World D).Known :=
  ⟨fun _ hpath ↦ absurd hpath (AList.notMem_empty _), nofun, nofun, nofun, nofun, nofun⟩

theorem World.Known.run (h : w.Known) (hrun : Run check allowed w w') : w'.Known := by
  induction hrun with
  | refl => exact h
  | tail _ hstep ih => exact ih.step hstep

/-! ### A closed document -/

/-- The notification opens the document or changes it. -/
def Notification.Edits (path : Path) : Notification → Prop
  | .didOpen document _ _ _ _ | .didChange document _ _ => document = some path
  | _ => False

/-- The notification opens the document. -/
def Notification.Opens (path : Path) : Notification → Prop
  | .didOpen document _ _ _ _ => document = some path
  | _ => False

/-- No diagnostics are shown at the path. -/
def World.Clear (w : World D) (path : Path) : Prop :=
  ∀ message, w.lastFor path = some message → message.diagnostics = []

/-- The document is closed, and whatever is or will be its last message is empty. -/
structure World.Closed (w : World D) (check : Inputs → SourceFile → List D) (path : Path) :
    Prop where
  closed : path ∉ w.main.opened
  harmless : w.Harmless check path
  last : w.outbox = some (.clear path) ∨ w.Clear path

theorem MainLoop.Handling.notOpened {m m' : MainLoop} {out : Option Outgoing}
    (h : m.Handling n m' out) (hn : ¬ n.Edits path) (hclosed : path ∉ m.opened) :
    path ∉ m'.opened := by
  cases h with
  | unchanged | warned | openedIgnored => exact hclosed
  | closed => exact fun hpath ↦ hclosed (AList.mem_erase.mp hpath).2
  | opened | openedNew | changed =>
    intro hpath
    rcases (AList.mem_insert _).mp hpath with rfl | hold
    · exact hn rfl
    · exact hclosed hold

theorem World.Harmless.handle (h : w.Harmless check path) (hknown : w.Known)
    (hout : w.outbox = none) (hclosed : path ∉ (w.handle n).main.opened) :
    (w.handle n).Harmless check path := by
  refine ⟨fun job hjob hcurrent item hitem hpath ↦ ?_, h.message⟩
  rcases mem_jobs_handle hout hjob with hold | ⟨-, rfl⟩
  · have hle := hknown.revision job hold
    have hgrows := (w.handling n).revision_le
    exact h.jobs job hold (by omega) item hitem hpath
  · have hdue := MainLoop.mem_recompute_items.mp hitem
    rw [← hpath] at hclosed
    exact absurd (AList.lookup_isSome.mp (by rw [hdue.opened]; rfl)) hclosed

theorem World.Closed.handle (h : w.Closed check path) (hknown : w.Known) (hout : w.outbox = none)
    (hn : ¬ n.Edits path) : (w.handle n).Closed check path := by
  have hclosed := (w.handling n).notOpened hn h.closed
  refine ⟨hclosed, h.harmless.handle hknown hout hclosed, .inr ?_⟩
  rcases h.last with hclear | hlast
  · rw [hout] at hclear
    cases hclear
  · exact hlast

theorem World.Closed.goes (h : w.Closed check path) (hgoes : w.Goes w' check) :
    w'.Closed check path := by
  refine ⟨?_, ⟨fun job hjob hcurrent item hitem ↦ ?_, fun message hm hpath ↦ ?_⟩, ?_⟩
  · rw [hgoes.main]
    exact h.closed
  · obtain ⟨former, hformer, hrequest, hrest⟩ := hgoes.jobs job hjob
    rw [hgoes.main, hrequest] at hcurrent
    rw [hrequest]
    exact h.harmless.jobs former hformer hcurrent item (hrest hitem)
  · rcases hgoes.message message hm with hold | ⟨job, hjob, hcurrent, item, hitem, rfl⟩
    · exact h.harmless.message message hold hpath
    · exact h.harmless.jobs job hjob hcurrent item hitem hpath
  · rcases hgoes.sent with ⟨hsent, hkept⟩ | ⟨⟨last, hlast, hsent⟩, hkept⟩ | ⟨other, hother, hsent⟩
    · refine h.last.imp (fun hclear ↦ ?_) fun hlast message hm ↦ ?_
      · rw [hkept path hclear, hclear]
      · exact hlast message (by rwa [World.lastFor, hsent] at hm)
    · refine h.last.imp (fun hclear ↦ by rw [hkept, hclear]) fun hbefore message hm ↦ ?_
      rw [World.lastFor, hsent] at hm
      by_cases hpath : last.path = path
      · rw [lastOf_append_of_eq hpath] at hm
        cases hm
        exact h.harmless.message last hlast hpath
      · rw [lastOf_append_of_ne hpath] at hm
        exact hbefore message hm
    · refine .inr fun message hm ↦ ?_
      rw [World.lastFor, hsent] at hm
      by_cases hpath : other = path
      · rw [lastOf_append_of_eq hpath] at hm
        cases hm
        rfl
      · rw [lastOf_append_of_ne hpath] at hm
        rcases h.last with hclear | hbefore
        · rw [hother] at hclear
          cases hclear
          exact absurd rfl hpath
        · exact hbefore message hm

theorem World.Closed.run (h : w.Closed check path) (hknown : w.Known)
    (hrun : Run check (fun n ↦ ¬ n.Edits path) w w') : w'.Closed check path := by
  induction hrun with
  | refl => exact h
  | @tail v v' hrun hstep ih =>
    rcases hstep.goes with ⟨n, hn, hout, rfl⟩ | hgoes
    · exact ih.handle (hknown.run hrun) hout hn
    · exact ih.goes hgoes

/-- Closing a document that is known clears it; nothing is published for another. -/
theorem World.closed_handle (hknown : w.Known) (hout : w.outbox = none)
    (hharmless : w.Harmless check path) :
    (w.handle (.didClose (some path))).Closed check path := by
  by_cases hpath : path ∈ w.main.files
  · have hhandled : w.main.handleNotification (.didClose (some path)) =
        ({ w.main with opened := w.main.opened.erase path }, some (.clear path)) := if_pos hpath
    have hclosed : path ∉ (w.handle (.didClose (some path))).main.opened := by
      simp [World.handle, hhandled]
    exact ⟨hclosed, hharmless.handle hknown hout hclosed, .inl (by simp [World.handle, hhandled])⟩
  · have hhandled : w.main.handleNotification (.didClose (some path)) = (w.main, none) :=
      if_neg hpath
    have hclosed : path ∉ (w.handle (.didClose (some path))).main.opened := by
      simp only [World.handle, hhandled]
      exact fun hopened ↦ hpath (hknown.opened path hopened)
    refine ⟨hclosed, hharmless.handle hknown hout hclosed, .inr fun message hm ↦ ?_⟩
    obtain ⟨hsent, heq⟩ := mem_of_lastOf hm
    rw [← heq] at hpath
    exact absurd (hknown.sent message hsent) hpath

/-- The last diagnostics of a document that has been closed are empty, when nothing that the
worker held at the closing is sent after it and the document is not edited while it is closed. -/
theorem World.closed_stays_clear {ws : Workspace}
    (hreach : Run check (fun _ ↦ True) (start ws) w) (hout : w.outbox = none)
    (hharmless : w.Harmless check path)
    (hrun : Run check (fun n ↦ ¬ n.Edits path) (w.handle (.didClose (some path))) w')
    (hquiet : w'.Quiet) : w'.Clear path := by
  have hknown := (known_start ws).run hreach
  have hclosed := (closed_handle hknown hout hharmless).run (hknown.handle hout) hrun
  refine hclosed.last.resolve_left ?_
  rw [hquiet.outbox]
  nofun

/-- The document that does not parse is closed after its diagnostics have been sent. -/
theorem published_closed_clear :
    ((published.handle (.didClose (some "/app/user.rb"))).emit (.clear "/app/user.rb")).Clear
      "/app/user.rb" :=
  World.closed_stays_clear run_published rfl ⟨nofun, nofun⟩ (.single (.emit rfl)) ⟨rfl, rfl, rfl⟩

/-- It is closed while the worker is about to check it. -/
theorem unparsed_closed_not_clear : ¬ ∀ (ws : Workspace) (w w' : World String) (path : Path),
    Run unclosed (fun _ ↦ True) (.start ws) w → w.outbox = none →
    Run unclosed (fun n ↦ ¬ n.Opens path) (w.handle (.didClose (some path))) w' → w'.Quiet →
    w'.Clear path := by
  intro h
  have hclear : Run unclosed (fun n ↦ ¬ n.Opens "/app/user.rb") _
      ((unparsed.handle (.didClose (some "/app/user.rb"))).emit (.clear "/app/user.rb")) :=
    .single (.emit rfl)
  have hcomputed := hclear.tail (.compute worker_unparsed rfl)
  have hdone := (hcomputed.tail (.send rfl)).tail (.done rfl)
  have hlast := h vendored _ _ "/app/user.rb" run_unparsed rfl hdone ⟨rfl, rfl, rfl⟩ _ rfl
  cases hlast

end Steps

end Itaruby.Server
