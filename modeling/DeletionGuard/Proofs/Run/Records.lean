import DeletionGuard.Proofs.Run.Verdicts
import DeletionGuard.Report

/-!
Outcomes as flat records, in which every part may be missing, and the steps that read them part by
part. What an evaluation finds always fits together, so no step misses what it takes for granted.
-/
namespace DeletionGuard
variable {ev : Evaluator} {w : World} {flags : Flags} {raw : String} {o : Outcome} {t : Target}
  {b : Block} {v : Verdict} {leaves : List Path}

structure Verdict.Record where
  allowed : Bool
  bypassed : Bool
  reason : Option Reason
  path : Option Path
  status : Option Git.Status

def Verdict.record : Verdict → Verdict.Record
  | allow bypassed => ⟨true, bypassed, none, none, none⟩
  | block b => ⟨false, false, some b.reason, b.path, b.status⟩

/-- A verdict tells why and about what it refuses, and nothing of that if it allows. A status is
told if it is the reason. -/
structure Verdict.Record.WellFormed (v : Verdict.Record) : Prop where
  allowed : v.allowed = true → v.reason = none ∧ v.path = none ∧ v.status = none
  blocked : v.allowed = false → v.bypassed = false ∧ v.reason.isSome = true ∧ v.path.isSome = true
  status : v.status.isSome = true ↔ v.reason = some .uncommittedChange
  dirty : ∀ s, v.status = some s → s.isDirty = true

namespace Verdict
open Record (WellFormed)

theorem wellFormed_allow (bypassed : Bool) : (allow bypassed).record.WellFormed where
  allowed _ := ⟨rfl, rfl, rfl⟩
  blocked := nofun
  status := by simp [record]
  dirty := nofun

theorem wellFormed_block {reason : Reason} (p : Path) (h : reason ≠ .uncommittedChange) :
    (block ⟨reason, some p, none⟩).record.WellFormed where
  allowed := nofun
  blocked _ := ⟨rfl, rfl, rfl⟩
  status := by simpa [record] using h
  dirty := nofun

theorem wellFormed_ofStatus (s : Git.Status) (p : Path) : (ofStatus s p).record.WellFormed := by
  unfold ofStatus
  split
  · rename_i hdirty
    exact ⟨nofun, fun _ => ⟨rfl, rfl, rfl⟩, by simp [record],
      fun s' hs => Option.some.inj hs ▸ hdirty⟩
  · exact wellFormed_allow false

end Verdict

namespace Evaluator

theorem wellFormed_of_boundary {g : Guard} (h : g.boundary t = some v) : v.record.WellFormed := by
  unfold Guard.boundary at h
  split at h
  · rw [← Option.some.inj h]
    exact Verdict.wellFormed_allow true
  · split at h
    · rw [← Option.some.inj h]
      exact Verdict.wellFormed_block t.absolute nofun
    · exact absurd h nofun

theorem wellFormed_applyPolicy (g : Guard) (w : World) (t : Target) :
    (g.applyPolicy w t).record.WellFormed := by
  unfold Guard.applyPolicy
  split
  · exact Verdict.wellFormed_allow false
  · exact Verdict.wellFormed_ofStatus _ t.absolute

theorem wellFormed_refuse (u : Unverifiable) :
    (Verdict.block (Guard.refuse u)).record.WellFormed :=
  Verdict.wellFormed_block u.path nofun

theorem wellFormed_of_judge (h : ev.judge w raw = .ok v) : v.record.WellFormed := by
  unfold judge at h
  split at h
  · rename_i t _
    rw [← Except.ok.inj h, Guard.decide]
    cases hboundary : ev.guard.boundary t with
    | none => exact wellFormed_applyPolicy ev.guard w t
    | some v => exact wellFormed_of_boundary hboundary
  · rename_i u _
    rw [← Except.ok.inj h]
    exact wellFormed_refuse u
  · exact absurd h nofun

theorem wellFormed_of_judgeAll (h : ev.judgeAll w leaves = .ok v) : v.record.WellFormed := by
  induction leaves with
  | nil =>
    rw [judgeAll_nil] at h
    rw [← Except.ok.inj h]
    exact Verdict.wellFormed_allow false
  | cons leaf rest ih =>
    rw [judgeAll_cons] at h
    split at h
    · exact absurd h nofun
    · rename_i v' hv'
      split at h
      · rw [← Except.ok.inj h]
        exact wellFormed_of_judge hv'
      · exact ih h

theorem wellFormed_of_judgeTree (h : ev.judgeTree w t = .ok v) : v.record.WellFormed := by
  unfold judgeTree at h
  split at h
  · split at h
    · rename_i u _
      rw [← Except.ok.inj h]
      exact wellFormed_refuse u
    · exact absurd h nofun
  · exact wellFormed_of_judgeAll h

end Evaluator

structure Outcome.Record where
  raw : String
  target : Option Target
  verdict : Option Verdict.Record
  error : Option OperationError
  skipped : Bool

def Outcome.record (o : Outcome) : Outcome.Record :=
  ⟨o.raw, o.target?, o.verdict?.map Verdict.record, o.error?, o.skipped⟩

/-- Exactly one thing is told about an argument. One without a target cannot be verified and is
refused for that, and what is allowed to be removed exists. -/
structure Outcome.Record.WellFormed (o : Outcome.Record) : Prop where
  one : [o.verdict.isSome, o.error.isSome, o.skipped].count true = 1
  verdict : ∀ v, o.verdict = some v → v.WellFormed
  target : o.target = none → ∃ v, o.verdict = some v ∧ v.allowed = false ∧
    v.reason = some .unreadableDirectory
  existing : ∀ v, o.verdict = some v → v.allowed = true →
    ∃ t, o.target = some t ∧ t.exists? = true

namespace Evaluator

theorem wellFormed_of_answer {bypass : Option Verdict} (hbypass : ev.guard.boundary t = bypass)
    (h : ev.answer w flags t bypass = .ok (.verdict v)) : v.record.WellFormed := by
  unfold answer at h
  split at h
  · exact absurd h nofun
  · split at h
    · split at h <;> exact absurd h nofun
    · split at h
      · exact absurd h nofun
      · split at h
        · rw [← Answer.verdict.inj (Except.ok.inj h)]
          exact wellFormed_of_boundary hbypass
        · split at h
          · obtain ⟨v', hv', hverdict⟩ := World.map_eq_ok.mp h
            rw [← Answer.verdict.inj hverdict]
            exact wellFormed_of_judgeTree hv'
          · rw [← Answer.verdict.inj (Except.ok.inj h)]
            exact wellFormed_applyPolicy ev.guard w t

/-- The outcome of an argument fits together, and has the target of the argument if there is one. -/
structure Answered (ev : Evaluator) (w : World) (raw : String) (o : Outcome) : Prop where
  same : o.raw = raw
  target : ∀ t, o.target? = some t ↔ w.resolve ev.base raw = .ok t
  wellFormed : o.record.WellFormed

theorem wellFormed_judged {a : Answer} (hverdict : ∀ v, a = .verdict v → v.record.WellFormed)
    (hexists : ∀ b, a = .verdict (.allow b) → t.exists? = true) :
    (Outcome.mk raw (.judged t a)).record.WellFormed := by
  cases a with
  | verdict v =>
    refine ⟨rfl, fun v' hv' => ?_, nofun, fun v' hv' hallowed => ⟨t, rfl, ?_⟩⟩
    · rw [← Option.some.inj hv']
      exact hverdict v rfl
    · cases v with
      | allow b => exact hexists b rfl
      | block b =>
        rw [← Option.some.inj hv'] at hallowed
        exact absurd hallowed nofun
  | error e => exact ⟨rfl, nofun, nofun, nofun⟩
  | skipped => exact ⟨rfl, nofun, nofun, nofun⟩

theorem answered_of_evaluate (h : ev.evaluate w flags raw = .ok o) : ev.Answered w raw o := by
  have hallow (t : Target) (b : Bool) (ho : Remover.Allows o t b) : t.exists? = true :=
    (permission_of_evaluate h ho).2.2.2.1
  unfold evaluate at h
  cases hresolve : w.resolve ev.base raw with
  | error x =>
    rw [hresolve] at h
    cases x with
    | failure f => exact absurd h nofun
    | unverifiable u =>
      obtain rfl := Except.ok.inj h
      refine ⟨rfl, fun t => ⟨nofun, fun ht => ?_⟩, ?_⟩
      · rw [hresolve] at ht
        exact absurd ht nofun
      · exact ⟨rfl, fun v hv => Option.some.inj hv ▸ wellFormed_refuse u,
          fun _ => ⟨_, rfl, rfl, rfl⟩, fun v hv hallowed => by
            rw [← Option.some.inj hv] at hallowed
            exact absurd hallowed nofun⟩
  | ok t =>
    have htarget (a : Answer) (t' : Target) :
        (Outcome.mk raw (.judged t a)).target? = some t' ↔ w.resolve ev.base raw = .ok t' := by
      rw [hresolve]
      exact ⟨fun ht => congrArg Except.ok (Option.some.inj ht),
        fun ht => congrArg some (Except.ok.inj ht)⟩
    simp only [hresolve] at h
    split at h
    · rename_i b hboundary
      obtain rfl := Except.ok.inj h
      refine ⟨rfl, htarget _, wellFormed_judged (fun v hv => ?_) nofun⟩
      rw [← Answer.verdict.inj hv]
      exact wellFormed_of_boundary hboundary
    · obtain ⟨a, ha, rfl⟩ := World.map_eq_ok.mp h
      refine ⟨rfl, htarget _, wellFormed_judged (fun v hv => ?_) fun b hb => ?_⟩
      · exact wellFormed_of_answer rfl (hv ▸ ha)
      · exact hallow t b (congrArg (Finding.judged t) hb)

end Evaluator

namespace Verdict.Record

def explain? (v : Verdict.Record) (projectRoot : Path) : Option String :=
  v.reason.map fun reason => (Block.mk reason v.path v.status).explain projectRoot

def describe? (v : Verdict.Record) : Option String :=
  if v.allowed then some (if v.bypassed then "allowed by config" else "allowed")
  else v.reason.map fun reason => (Block.mk reason v.path v.status).describe

end Verdict.Record

namespace Outcome.Record

def act? (s : Remover) (r : Removals) (o : Outcome.Record) : Option Removals :=
  if o.skipped then some { r with tally := r.tally.addSkipped }
  else
    match o.error with
    | some e => some (r.report (Remover.complaint r.world.screen o.raw e.message) Tally.addFailed)
    | none =>
      o.verdict.bind fun v =>
        if !v.allowed then
          (v.explain? s.projectRoot).map fun text =>
            r.report (Remover.complaint r.world.screen o.raw text) Tally.addBlocked
        else o.target.map fun t => s.act r ⟨o.raw, .judged t (.verdict (.allow v.bypassed))⟩

/-- Outcomes acted on in order, until the run ends. -/
def actAll? (s : Remover) : Removals → List Outcome.Record → Option Removals
  | r, [] => some r
  | r, o :: rest => (o.act? s r).bind fun r => if r.crash.isSome then some r else actAll? s r rest

def cells? (o : Outcome.Record) : Option (String × String) :=
  if o.skipped then some (Console.styled "dim" "skip", "missing (ignored by --force)")
  else
    match o.error with
    | some e => some (Console.styled "yellow" "error", e.message)
    | none =>
      o.verdict.bind fun v =>
        if v.allowed then v.describe?.map fun text => (Console.styled "green" "allow", text)
        else
          v.reason.bind fun reason => v.describe?.map fun text =>
            let place := match v.path with
              | some p => " (" ++ p.text ++ ")"
              | none => ""
            (Console.styled "red" "block", reason.word ++ ": " ++ text ++ place)

end Outcome.Record

namespace Outcome

theorem act?_record (s : Remover) (r : Removals) (o : Outcome) :
    o.record.act? s r = some (s.act r o) := by
  obtain ⟨raw, finding⟩ := o
  match finding with
  | .unverifiable b => rfl
  | .judged t .skipped => rfl
  | .judged t (.error e) => rfl
  | .judged t (.verdict (.block b)) => rfl
  | .judged t (.verdict (.allow bypassed)) => rfl

theorem actAll?_record (s : Remover) (r : Removals) (outcomes : List Outcome) :
    Record.actAll? s r (outcomes.map record) = some (s.actAll r outcomes) := by
  induction outcomes generalizing r with
  | nil => rfl
  | cons o rest ih =>
    rw [List.map_cons, Record.actAll?, act?_record, Option.bind_some, Remover.actAll]
    split
    · rfl
    · exact ih (s.act r o)

theorem cells?_record (o : Outcome) : o.record.cells? = some (Report.cells o) := by
  obtain ⟨raw, finding⟩ := o
  match finding with
  | .unverifiable b => rfl
  | .judged t .skipped => rfl
  | .judged t (.error e) => rfl
  | .judged t (.verdict (.block b)) => rfl
  | .judged t (.verdict (.allow true)) => rfl
  | .judged t (.verdict (.allow false)) => rfl

end Outcome
end DeletionGuard
