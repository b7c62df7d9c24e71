import PS2Bios.Library.Run
import Mathlib.Data.List.Basic

/-!
# A line in front of one server

Jobs are accepted at any time and wait in a line; the server is on the first of them. When it has
finished, the job is retired: it leaves the line, the server begins the next, and whoever is to be
called about the job (`callback`) is called. What an observer sees of a run (`Act`) is then in
order: the jobs begun are the jobs accepted, up to those still waiting, the jobs finished are those
begun, up to the one being served, and the calls made are those the finished jobs asked for, up to
the one not yet retired (`Line.history`).
-/

namespace PS2Bios

namespace Line

universe u v w

/-- What an observer sees: jobs of type `α`, and calls about them of type `β`. -/
inductive Act (α : Type u) (β : Type v)
  | accepted (job : α)
  | begun (job : α)
  | finished (job : α)
  | called (call : β)

variable {α : Type u} {β : Type v}

/-- The job an act accepts. -/
def Act.accepted? : Act α β → Option α
  | .accepted job => some job
  | _ => none

/-- The job an act begins. -/
def Act.begun? : Act α β → Option α
  | .begun job => some job
  | _ => none

/-- The job an act finishes. -/
def Act.finished? : Act α β → Option α
  | .finished job => some job
  | _ => none

/-- The call an act makes. -/
def Act.called? : Act α β → Option β
  | .called call => some call
  | _ => none

/-- The line, the job being served included, and whether that one has been finished. -/
structure State (α : Type u) where
  waiting : List α
  finished : Bool

/-- No job has been accepted. -/
def State.start : State α := ⟨[], false⟩

/-- The job the server has finished and that has not been retired. -/
def State.unretired (s : State α) : List α :=
  if s.finished then s.waiting.take 1 else []

/-- One step, and what is seen of it. -/
inductive Step (callback : α → Option β) : State α → List (Act α β) → State α → Prop
  /-- Nothing happens, as when a job is refused. -/
  | skip (s : State α) : Step callback s [] s
  /-- A job is accepted while the server is idle, and begun. -/
  | begin (job : α) : Step callback ⟨[], false⟩ [.accepted job, .begun job] ⟨[job], false⟩
  /-- A job is accepted while the server has others. -/
  | accept (job : α) {waiting : List α} {finished : Bool} (h : waiting ≠ []) :
      Step callback ⟨waiting, finished⟩ [.accepted job] ⟨waiting ++ [job], finished⟩
  | finish (job : α) (waiting : List α) :
      Step callback ⟨job :: waiting, false⟩ [.finished job] ⟨job :: waiting, true⟩
  /-- A job is retired, and the next one begun, if there is one. -/
  | retire (job : α) (waiting : List α) :
      Step callback ⟨job :: waiting, true⟩
        ((waiting.take 1).map .begun ++ (callback job).toList.map .called) ⟨waiting, false⟩

variable {callback : α → Option β}

/-- What a log says of the four kinds of act, against the state it leads to and the jobs
retired on the way. -/
structure History (callback : α → Option β) (log : List (Act α β)) (s : State α)
    (retired : List α) : Prop where
  accepted : log.filterMap Act.accepted? = retired ++ s.waiting
  begun : log.filterMap Act.begun? = retired ++ s.waiting.take 1
  finished : log.filterMap Act.finished? = retired ++ s.unretired
  called : log.filterMap Act.called? = retired.filterMap callback

theorem history_start : History callback [] State.start [] :=
  ⟨rfl, rfl, rfl, rfl⟩

/-- A job accepted behind others does not come first. -/
theorem take_one_append {waiting : List α} (h : waiting ≠ []) (job : α) :
    (waiting ++ [job]).take 1 = waiting.take 1 := by
  obtain ⟨x, xs, rfl⟩ := List.exists_cons_of_ne_nil h
  rfl

/-- A step adds to each list of the history what it shows. -/
theorem History.step {log acts : List (Act α β)} {s t : State α} {retired : List α}
    (h : History callback log s retired) (hst : Step callback s acts t) :
    ∃ more, History callback (log ++ acts) t (retired ++ more) := by
  obtain ⟨ha, hb, hf, hc⟩ := h
  cases hst with
  | skip => exact ⟨[], by simpa using ⟨ha, hb, hf, hc⟩⟩
  | begin job =>
    refine ⟨[], ?_, ?_, ?_, ?_⟩
    · simp [ha, Act.accepted?]
    · simp [hb, Act.begun?, List.filterMap_cons]
    · simp [hf, Act.finished?, State.unretired, List.filterMap_cons]
    · simp [hc, Act.called?, List.filterMap_cons]
  | accept job hne =>
    refine ⟨[], ?_, ?_, ?_, ?_⟩
    · simp [ha, Act.accepted?]
    · simp [hb, Act.begun?, List.filterMap_cons, take_one_append hne]
    · simp [hf, Act.finished?, State.unretired, List.filterMap_cons, take_one_append hne]
    · simp [hc, Act.called?, List.filterMap_cons]
  | finish job waiting =>
    refine ⟨[], ?_, ?_, ?_, ?_⟩
    · simp [ha, Act.accepted?, List.filterMap_cons]
    · simp [hb, Act.begun?, List.filterMap_cons]
    · simp [hf, Act.finished?, State.unretired]
    · simp [hc, Act.called?, List.filterMap_cons]
  | retire job waiting =>
    refine ⟨[job], ?_, ?_, ?_, ?_⟩
    all_goals
      cases waiting <;> cases hcall : callback job <;>
        simp_all [List.filterMap_cons, Act.accepted?, Act.begun?, Act.finished?, Act.called?,
          State.unretired]

/-- **What is seen of a run**, when each label `i` shows the acts `f i`. -/
theorem history {ι : Type w} {f : ι → List (Act α β)} {s : State α} {l : List ι}
    (h : Steps (fun s i t => Step callback s (f i) t) State.start l s) :
    ∃ retired, History callback (l.flatMap f) s retired := by
  suffices hgen : ∀ (a : State α) (l : List ι) (s : State α) (log : List (Act α β)) retired,
      Steps (fun s i t => Step callback s (f i) t) a l s → History callback log a retired →
        ∃ retired, History callback (log ++ l.flatMap f) s retired by
    simpa using hgen _ _ _ [] [] h history_start
  intro a l s log retired h
  induction h generalizing log retired with
  | nil _ =>
    intro hlog
    exact ⟨retired, by simpa using hlog⟩
  | cons hst _ ih =>
    intro hlog
    obtain ⟨more, hmore⟩ := hlog.step hst
    simpa using ih _ _ hmore

end Line

end PS2Bios
