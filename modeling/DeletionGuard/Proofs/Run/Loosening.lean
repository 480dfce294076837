import DeletionGuard.Batch
import DeletionGuard.Proofs.Run.Destination
import DeletionGuard.Proofs.Run.Trees

/-!
Looser configurations. One configuration loosens another if it has all its rules and is no stricter
about the project. An evaluation that was no refusal then stays what it was: a usage error and a
skip stay the same, and a permission stays a permission, by a rule if it was one by a rule.
-/
namespace DeletionGuard
variable {w : World} {g g' : Guard} {ev ev' : Evaluator} {flags : Flags}
  {raw : String} {t : Target} {p : Path} {b : Bool} {v : Verdict} {a : Answer} {o : Outcome}
  {leaves : List Path}

/-- A configuration has the rules of another, and lets go of the project if the other does. -/
structure Config.Loosens (c' c : Config) : Prop where
  project : c.settings.allowProjectDeletion = true → c'.settings.allowProjectDeletion = true
  rules : ∀ r ∈ c.rules, r ∈ c'.rules

theorem Config.Loosens.restricted {c c' : Config} (h : c'.Loosens c)
    (hrestricted : c'.settings.allowProjectDeletion = false) :
    c.settings.allowProjectDeletion = false :=
  Bool.eq_false_iff.mpr fun hopen => Bool.eq_false_iff.mp hrestricted (h.project hopen)

structure Guard.Loosens (g' g : Guard) : Prop where
  projectRoot : g'.projectRoot = g.projectRoot
  rules : ∀ r ∈ g.rules, r ∈ g'.rules
  policy : g'.policy = g.policy ∨ g'.policy = .open

/-- An evaluator sees the same targets as another, under a looser guard. -/
structure Evaluator.Loosens (ev' ev : Evaluator) : Prop where
  base : ev'.base = ev.base
  guard : ev'.guard.Loosens ev.guard

inductive Answer.Upholds : Answer → Answer → Prop where
  | error (e : OperationError) : Upholds (.error e) (.error e)
  | skipped : Upholds .skipped .skipped
  | allow {b b' : Bool} (hbypass : b = true → b' = true) :
      Upholds (.verdict (.allow b')) (.verdict (.allow b))

def Outcome.bypassed (o : Outcome) : Bool :=
  o.verdict?.any Verdict.bypassed

/-- An outcome that is no refusal stands: only the permission may be another one. -/
structure Outcome.Upholds (o' o : Outcome) : Prop where
  raw : o'.raw = o.raw
  target : o'.target? = o.target?
  skipped : o'.skipped = o.skipped
  error : o'.error? = o.error?
  blocked : o'.blocked = false
  allowed : o'.allowed = o.allowed
  bypassed : o.bypassed = true → o'.bypassed = true

theorem Answer.Upholds.refl (h : ∀ r, a ≠ .verdict (.block r)) : a.Upholds a := by
  cases a with
  | error e => exact .error e
  | skipped => exact .skipped
  | verdict v =>
    cases v with
    | allow b => exact .allow id
    | block r => exact absurd rfl (h r)

theorem Answer.Upholds.outcome {a' : Answer} (h : a'.Upholds a) (raw : String) (t : Target) :
    Outcome.Upholds ⟨raw, .judged t a'⟩ ⟨raw, .judged t a⟩ := by
  cases h with
  | error e => exact ⟨rfl, rfl, rfl, rfl, rfl, rfl, nofun⟩
  | skipped => exact ⟨rfl, rfl, rfl, rfl, rfl, rfl, nofun⟩
  | allow hbypass => exact ⟨rfl, rfl, rfl, rfl, rfl, rfl, hbypass⟩

theorem permitted_of_blocked (h : Outcome.blocked ⟨raw, .judged t a⟩ = false) (r : Block) :
    a ≠ .verdict (.block r) := by
  rintro rfl
  exact absurd h nofun

namespace Guard.Loosens

theorem covered (h : g'.Loosens g) (hcovered : DeletionGuard.covered g.rules p = true) :
    DeletionGuard.covered g'.rules p = true := by
  obtain ⟨r, hr, hp⟩ := List.any_eq_true.mp hcovered
  exact List.any_eq_true.mpr ⟨r, h.rules r hr, hp⟩

theorem boundary_bypass (h : g'.Loosens g) (hboundary : g.boundary t = some (.allow b)) :
    g'.boundary t = some (.allow true) := by
  obtain ⟨-, hcovered⟩ := Evaluator.covered_of_boundary hboundary
  rw [boundary, h.covered hcovered, if_pos rfl]

theorem boundary_open (h : g'.Loosens g) (hboundary : g.boundary t = none) :
    g'.boundary t = none ∨ g'.boundary t = some (.allow true) := by
  obtain ⟨-, hwithin⟩ := Evaluator.isWithin_of_boundary hboundary
  rw [boundary, h.projectRoot, hwithin]
  cases DeletionGuard.covered g'.rules t.resolved with
  | true => exact .inr rfl
  | false => exact .inl rfl

theorem applyPolicy (h : g'.Loosens g) (hallow : g.applyPolicy w t = .allow b) :
    g'.applyPolicy w t = .allow b := by
  obtain hsame | hopen := h.policy
  · rwa [Guard.applyPolicy, hsame]
  · rw [Guard.applyPolicy, hopen, Evaluator.applyPolicy_allow hallow]

theorem decide (h : g'.Loosens g) (hallow : (g.decide w t).allowed = true) :
    (g'.decide w t).allowed = true := by
  unfold Guard.decide at hallow ⊢
  cases hboundary : g.boundary t with
  | none =>
    rw [hboundary, Option.getD_none] at hallow
    cases hpolicy : g.applyPolicy w t with
    | block r =>
      rw [hpolicy] at hallow
      exact absurd hallow nofun
    | allow b =>
      obtain hopen | hbypass := h.boundary_open hboundary
      · rw [hopen, Option.getD_none, h.applyPolicy hpolicy]
        rfl
      · rw [hbypass]
        rfl
  | some v =>
    rw [hboundary] at hallow
    cases v with
    | block r => exact absurd hallow nofun
    | allow b =>
      rw [h.boundary_bypass hboundary]
      rfl

end Guard.Loosens

namespace Evaluator.Loosens

theorem judge (h : ev'.Loosens ev) (hjudge : ev.judge w raw = .ok v) (hallow : v.allowed = true) :
    ∃ v', ev'.judge w raw = .ok v' ∧ v'.allowed = true := by
  unfold Evaluator.judge at hjudge ⊢
  rw [h.base]
  cases hresolve : w.resolve ev.base raw with
  | error x =>
    rw [hresolve] at hjudge
    cases x with
    | failure f => exact absurd hjudge nofun
    | unverifiable u =>
      rw [← Except.ok.inj hjudge] at hallow
      exact absurd hallow nofun
  | ok t =>
    rw [hresolve] at hjudge
    rw [← Except.ok.inj hjudge] at hallow
    exact ⟨_, rfl, h.guard.decide hallow⟩

/-- Each leaf may be allowed for a reason of its own, by a rule or by the policy. -/
theorem judgeAll (h : ev'.Loosens ev) (hjudge : ev.judgeAll w leaves = .ok (.allow false)) :
    ev'.judgeAll w leaves = .ok (.allow false) := by
  refine judgeAll_allow_iff.mpr fun leaf hleaf => ?_
  obtain ⟨v, hv, hallow⟩ := judgeAll_allow_iff.mp hjudge leaf hleaf
  exact h.judge hv hallow

theorem judgeTree (h : ev'.Loosens ev) (hjudge : ev.judgeTree w t = .ok (.allow b)) :
    ev'.judgeTree w t = .ok (.allow false) := by
  obtain ⟨rfl, leaves, hleaves, -⟩ := judgeTree_allow hjudge
  unfold Evaluator.judgeTree at hjudge ⊢
  rw [hleaves] at hjudge ⊢
  exact h.judgeAll hjudge

theorem permission (h : ev'.Loosens ev)
    (hpolicy : (if t.isDir = true then (ev.judgeTree w t).map Answer.verdict
      else .ok (.verdict (ev.guard.applyPolicy w t))) = .ok a)
    (hblocked : ∀ r, a ≠ .verdict (.block r)) :
    a = .verdict (.allow false) ∧
      (if t.isDir = true then (ev'.judgeTree w t).map Answer.verdict
        else .ok (.verdict (ev'.guard.applyPolicy w t))) = .ok (.verdict (.allow false)) := by
  split at hpolicy
  · rename_i hdir
    rw [if_pos hdir]
    obtain ⟨v, hv, rfl⟩ := World.map_eq_ok.mp hpolicy
    cases v with
    | block r => exact absurd rfl (hblocked r)
    | allow b =>
      rw [h.judgeTree hv, (judgeTree_allow hv).1]
      exact ⟨rfl, rfl⟩
  · rename_i hdir
    rw [if_neg hdir]
    cases happly : ev.guard.applyPolicy w t with
    | block r =>
      rw [happly] at hpolicy
      exact absurd (Except.ok.inj hpolicy).symm (hblocked r)
    | allow b =>
      rw [happly] at hpolicy
      obtain rfl := applyPolicy_allow happly
      rw [h.guard.applyPolicy happly]
      exact ⟨(Except.ok.inj hpolicy).symm, rfl⟩

theorem answer (h : ev'.Loosens ev) (hanswer : ev.answer w flags t none = .ok a)
    (hblocked : ∀ r, a ≠ .verdict (.block r)) {bypass : Option Verdict}
    (hbypass : bypass = none ∨ bypass = some (.allow true)) :
    ∃ a', ev'.answer w flags t bypass = .ok a' ∧ a'.Upholds a := by
  unfold Evaluator.answer at hanswer ⊢
  cases hflag : t.notDirectory with
  | true =>
    rw [hflag, if_pos rfl] at hanswer
    rw [if_pos rfl, ← Except.ok.inj hanswer]
    exact ⟨_, rfl, .error _⟩
  | false =>
    rw [hflag, if_neg Bool.false_ne_true] at hanswer
    rw [if_neg Bool.false_ne_true]
    split at hanswer
    · rename_i hmissing
      rw [if_pos hmissing, ← Except.ok.inj hanswer]
      refine ⟨_, rfl, ?_⟩
      cases flags.force with
      | true => exact .skipped
      | false => exact .error _
    · rename_i hexists
      rw [if_neg hexists]
      split at hanswer
      · rename_i hdirectory
        rw [if_pos hdirectory, ← Except.ok.inj hanswer]
        exact ⟨_, rfl, .error _⟩
      · rename_i hdirectory
        rw [if_neg hdirectory]
        dsimp only at hanswer
        obtain ⟨rfl, hsame⟩ := h.permission hanswer hblocked
        obtain rfl | rfl := hbypass
        · exact ⟨_, hsame, .allow id⟩
        · exact ⟨_, rfl, .allow nofun⟩

theorem evaluate (h : ev'.Loosens ev) (hev : ev.evaluate w flags raw = .ok o)
    (hblocked : o.blocked = false) :
    ∃ o', ev'.evaluate w flags raw = .ok o' ∧ o'.Upholds o := by
  unfold Evaluator.evaluate at hev ⊢
  rw [h.base]
  cases hresolve : w.resolve ev.base raw with
  | error x =>
    rw [hresolve] at hev
    cases x with
    | failure f => exact absurd hev nofun
    | unverifiable u =>
      rw [← Except.ok.inj hev] at hblocked
      exact absurd hblocked nofun
  | ok t =>
    rw [hresolve] at hev
    dsimp only at hev ⊢
    cases hboundary : ev.guard.boundary t with
    | none =>
      rw [hboundary] at hev
      obtain ⟨a, hanswer, rfl⟩ := World.map_eq_ok.mp hev
      have hpermitted := permitted_of_blocked hblocked
      obtain hopen | hbypass := h.guard.boundary_open hboundary
      · obtain ⟨a', hanswer', hupholds⟩ := h.answer hanswer hpermitted (.inl rfl)
        rw [hopen]
        exact ⟨_, World.map_eq_ok.mpr ⟨a', hanswer', rfl⟩, hupholds.outcome raw t⟩
      · obtain ⟨a', hanswer', hupholds⟩ := h.answer hanswer hpermitted (.inr rfl)
        rw [hbypass]
        exact ⟨_, World.map_eq_ok.mpr ⟨a', hanswer', rfl⟩, hupholds.outcome raw t⟩
    | some v =>
      rw [hboundary] at hev
      cases v with
      | block r =>
        rw [← Except.ok.inj hev] at hblocked
        exact absurd hblocked nofun
      | allow b =>
        obtain ⟨rfl, -⟩ := covered_of_boundary hboundary
        obtain ⟨a, hanswer, rfl⟩ := World.map_eq_ok.mp hev
        rw [h.guard.boundary_bypass hboundary]
        exact ⟨_, hev, (Answer.Upholds.refl (permitted_of_blocked hblocked)).outcome raw t⟩

end Evaluator.Loosens

theorem Policy.choose_of_loosens {c c' : Config} {oracle : Option Git.Oracle} {policy : Policy}
    (h : c'.Loosens c) (hchoose : choose c.settings.allowProjectDeletion oracle = .ok policy) :
    ∃ policy', choose c'.settings.allowProjectDeletion oracle = .ok policy' ∧
      (policy' = policy ∨ policy' = .open) := by
  cases hopen : c'.settings.allowProjectDeletion with
  | true => exact ⟨.open, rfl, .inr rfl⟩
  | false =>
    rw [h.restricted hopen] at hchoose
    exact ⟨policy, hchoose, .inl rfl⟩

namespace World

theorem batchOracle_of_loosens {c c' : Config} {root : Path} {oracle found : Option Git.Oracle}
    (h : c'.Loosens c) (hfound : w.batchOracle c root oracle = .ok found) :
    (∃ found', w.batchOracle c' root oracle = .ok found') ∧
      (c'.settings.allowProjectDeletion = false → w.batchOracle c' root oracle = .ok found) := by
  cases oracle with
  | some given => exact ⟨⟨_, rfl⟩, fun _ => hfound⟩
  | none =>
    cases hopen : c'.settings.allowProjectDeletion with
    | true =>
      rw [batchOracle, hopen]
      exact ⟨⟨_, rfl⟩, nofun⟩
    | false =>
      rw [batchOracle, h.restricted hopen] at hfound
      rw [batchOracle, hopen]
      exact ⟨⟨found, hfound⟩, fun _ => hfound⟩

theorem startBatch_of_loosens {c c' : Config} {cwd : Path} {root : Option Path}
    {oracle : Option Git.Oracle} {b : Batch} (h : c'.Loosens c)
    (hb : w.startBatch c cwd root oracle = .ok b) :
    ∃ b', w.startBatch c' cwd root oracle = .ok b' ∧ b'.evaluator.Loosens b.evaluator := by
  unfold startBatch at hb ⊢
  simp only [bind_eq_ok] at hb
  obtain ⟨top, htop, found, hfound, hchosen⟩ := hb
  obtain ⟨policy, hpolicy, rfl⟩ := map_eq_ok.mp hchosen
  rw [htop]
  obtain ⟨⟨found', hfound'⟩, hclosed⟩ := batchOracle_of_loosens h hfound
  cases hopen : c'.settings.allowProjectDeletion with
  | true =>
    simp only [Except.bind, hfound', Policy.choose, if_pos]
    exact ⟨_, rfl, rfl, rfl, h.rules, .inr rfl⟩
  | false =>
    obtain ⟨policy', hpolicy', hsame⟩ := Policy.choose_of_loosens h hpolicy
    rw [hopen] at hpolicy'
    simp only [Except.bind, hclosed hopen, hpolicy']
    exact ⟨_, rfl, rfl, rfl, h.rules, hsame⟩

/-- Under a looser configuration an argument that was not refused keeps its skip or its usage error,
and one that was allowed stays allowed, by a rule if it was by a rule. -/
theorem evaluate_of_loosens {c c' : Config} {cwd : Path} {root : Option Path}
    {oracle : Option Git.Oracle} {b : Batch} (h : c'.Loosens c)
    (hb : w.startBatch c cwd root oracle = .ok b) :
    ∃ b', w.startBatch c' cwd root oracle = .ok b' ∧
      ∀ flags raw o, b.evaluator.evaluate w flags raw = .ok o → o.blocked = false →
        ∃ o', b'.evaluator.evaluate w flags raw = .ok o' ∧ o'.Upholds o := by
  obtain ⟨b', hb', hlooser⟩ := startBatch_of_loosens h hb
  exact ⟨b', hb', fun flags raw o => hlooser.evaluate⟩

def restrictedConfig (rules : List Rule) : Config :=
  ⟨⟨false, []⟩, rules, none⟩

/-- A directory with one committed file is allowed by the policy, and under one rule more by the
rule. -/
theorem evaluate_of_loosens_folder : ∃ b b' o o',
    Evaluator.folderWorld.startBatch (restrictedConfig []) ⟨.single, ["p"]⟩
      (some ⟨.single, ["p"]⟩) (some ⟨some ⟨.single, ["p"]⟩, [], [], ["d/e/f"], false⟩) = .ok b ∧
    Evaluator.folderWorld.startBatch (restrictedConfig [⟨⟨.single, ["p", "d"]⟩, true⟩])
      ⟨.single, ["p"]⟩ (some ⟨.single, ["p"]⟩)
      (some ⟨some ⟨.single, ["p"]⟩, [], [], ["d/e/f"], false⟩) = .ok b' ∧
    b.evaluator.evaluate Evaluator.folderWorld ⟨true, false⟩ "d" = .ok o ∧
    b'.evaluator.evaluate Evaluator.folderWorld ⟨true, false⟩ "d" = .ok o' ∧
    o.allowed = true ∧ o.bypassed = false ∧ o'.Upholds o := by
  have hloosens : (restrictedConfig [⟨⟨.single, ["p", "d"]⟩, true⟩]).Loosens
      (restrictedConfig []) := ⟨nofun, nofun⟩
  obtain ⟨b, hb⟩ : ∃ b, Evaluator.folderWorld.startBatch (restrictedConfig []) ⟨.single, ["p"]⟩
      (some ⟨.single, ["p"]⟩) (some ⟨some ⟨.single, ["p"]⟩, [], [], ["d/e/f"], false⟩) = .ok b :=
    ⟨_, rfl⟩
  have hallowed : (b.evaluator.evaluate Evaluator.folderWorld ⟨true, false⟩ "d").toOption.map
      (fun o => (o.allowed, o.bypassed)) = some (true, false) := by
    obtain rfl := Except.ok.inj hb
    decide +kernel
  obtain ⟨b', hb', huphold⟩ := evaluate_of_loosens hloosens hb
  obtain ⟨o, ho, hfound⟩ := toOption_map_eq_some.mp hallowed
  obtain ⟨hpermitted, hpolicy⟩ := Prod.mk.inj hfound
  have hblocked : o.blocked = false := Bool.eq_false_iff.mpr fun hblocked =>
    Bool.false_ne_true ((Evaluator.allowed_of_blocked hblocked).symm.trans hpermitted)
  obtain ⟨o', ho', hupholds⟩ := huphold ⟨true, false⟩ "d" o ho hblocked
  exact ⟨b, b', o, o', hb, hb', ho, ho', hpermitted, hpolicy, hupholds⟩

end World
end DeletionGuard
