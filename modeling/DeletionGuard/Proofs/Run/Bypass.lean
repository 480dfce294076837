import DeletionGuard.Proofs.Run.Trees

/-!
How far a bypass reaches. A rule is asked about the canonical path of an argument only; a directory
that it covers goes with all in it. What lies in the directory is covered by each recursive rule
that covers the directory, and by none of the others, so it may well be refused alone.
-/
namespace DeletionGuard
open FileTree
variable {ev : Evaluator} {w : World} {flags : Flags} {raw : String} {o : Outcome} {t : Target}
  {rules : List Rule} {r : Rule} {p : Path} {l m : Location} {e : Entry}

theorem mem_of_collect {α β ε : Type} {step : α → Except ε (Option β)} {items : List α}
    {found : List β} {b : β} (h : collect step items = .ok found) (hb : b ∈ found) :
    ∃ a ∈ items, step a = .ok (some b) := by
  induction items generalizing found with
  | nil =>
    obtain rfl := Except.ok.inj h
    exact absurd hb List.not_mem_nil
  | cons a rest ih =>
    rw [collect] at h
    split at h
    · exact absurd h nofun
    · obtain ⟨a', ha', hstep⟩ := ih h hb
      exact ⟨a', List.mem_cons_of_mem a ha', hstep⟩
    · rename_i b' hstep
      obtain ⟨others, hothers, rfl⟩ := World.map_eq_ok.mp h
      obtain rfl | hb := List.mem_cons.mp hb
      · exact ⟨a, List.mem_cons_self, hstep⟩
      · obtain ⟨a', ha', hstep'⟩ := ih hothers hb
        exact ⟨a', List.mem_cons_of_mem a ha', hstep'⟩

theorem World.root_of_rulesOf {paths : List AllowedPath} (h : w.rulesOf paths = .ok rules)
    (hr : r ∈ rules) : r.directory.root = .single := by
  obtain ⟨a, -, hstep⟩ := mem_of_collect h hr
  obtain ⟨found, hfound, hrule⟩ := map_eq_ok.mp hstep
  obtain ⟨d, rfl, rfl⟩ := Option.map_eq_some_iff.mp hrule
  unfold directoryOf? at hfound
  split at hfound
  · rename_i d' hresolved
    obtain rfl : d' = d := Option.some.inj (Except.ok.inj hfound)
    exact root_of_resolveStrict hresolved
  · split at hfound <;> exact absurd hfound nofun

theorem Rule.root_of_covers (h : r.covers p = true) : p.root = r.directory.root := by
  unfold covers at h
  split at h
  · exact ((Path.isWithin_iff p r.directory).mp h).1
  · obtain ⟨hparent, -⟩ := Bool.and_eq_true_iff.mp h
    rw [← of_decide_eq_true hparent]
    rfl

/-- Below a path that a rule covers it covers everything or nothing. -/
theorem Rule.covers_below (h : r.covers p = true) (hbelow : p.parts <+: m) (hne : p.parts ≠ m) :
    r.covers ⟨p.root, m⟩ = r.recursive := by
  unfold covers at h ⊢
  cases hrecursive : r.recursive with
  | true =>
    rw [hrecursive, if_pos rfl, Path.isWithin_iff] at h
    rw [if_pos rfl, Path.isWithin_iff]
    exact ⟨h.1, h.2.trans hbelow⟩
  | false =>
    rw [hrecursive, if_neg Bool.false_ne_true, Bool.and_eq_true, decide_eq_true_eq,
      decide_eq_true_eq] at h
    rw [if_neg Bool.false_ne_true, ← Bool.not_eq_true, Bool.and_eq_true, decide_eq_true_eq,
      ← h.1, not_and]
    intro hparent
    have hlength := congrArg List.length (Path.mk.inj hparent).2
    have hlt : p.parts.length < m.length := by
      have hle := hbelow.length_le
      have hlen : p.parts.length ≠ m.length := fun hlen => hne (hbelow.eq_of_length hlen)
      omega
    simp only [List.length_dropLast] at hlength
    -- only the root is its own parent, and a rule does not cover its directory
    have hnil : p.parts = [] := List.length_eq_zero_iff.mp (by omega)
    refine absurd ?_ h.2
    rw [← h.1, Path.parent, hnil]
    obtain ⟨root, parts⟩ := p
    obtain rfl : parts = [] := hnil
    rfl

theorem Guard.blocked_decide_iff {g : Guard} : (g.decide w t).blocked = true ↔
    covered g.rules t.resolved = false ∧
      (t.isWithin g.projectRoot = false ∨ (g.applyPolicy w t).blocked = true) := by
  unfold decide boundary
  cases hcovered : covered g.rules t.resolved <;> cases hwithin : t.isWithin g.projectRoot <;>
    simp [Verdict.blocked, Verdict.allowed]

namespace Evaluator

/-- An entry is refused if it is named by its canonical path. -/
inductive RefusedAlone (ev : Evaluator) (w : World) (l : Location) : Prop where
  | unverifiable (u : Unverifiable)
      (hresolve : w.resolve ev.base (Path.mk .single l).text = .error (.unverifiable u))
  | uncovered (t : Target) (hresolve : w.resolve ev.base (Path.mk .single l).text = .ok t)
      (hcovered : covered ev.guard.rules ⟨.single, l⟩ = false)
      (hrefused : t.isWithin ev.guard.projectRoot = false ∨
        (ev.guard.applyPolicy w t).blocked = true)

theorem blocked_alone_iff (hfind : w.tree.find? l = some e) (hfile : e.isDir = false)
    (heval : ev.evaluate w flags (Path.mk .single l).text = .ok o) :
    o.blocked = true ↔ ev.RefusedAlone w l := by
  have hsame := verdict_leaf ev flags hfind hfile
  rw [heval] at hsame
  obtain ⟨v, hjudge, hverdict⟩ := World.map_eq_ok.mp hsame.symm
  have hblocked : o.blocked = v.blocked := by rw [Outcome.blocked, ← hverdict, Option.any_some]
  rw [hblocked]
  unfold judge at hjudge
  cases hresolve : w.resolve ev.base (Path.mk .single l).text with
  | error x =>
    rw [hresolve] at hjudge
    cases x with
    | failure f => exact absurd hjudge nofun
    | unverifiable u =>
      obtain rfl := Except.ok.inj hjudge
      exact ⟨fun _ => .unverifiable u hresolve, fun _ => rfl⟩
  | ok t =>
    rw [hresolve] at hjudge
    obtain rfl := Except.ok.inj hjudge
    have hne : l ≠ [] := ne_nil_of_find? hfind hfile
    obtain ⟨-, hplace⟩ := World.resolved_of_place ⟨rfl, e, hfind⟩ hne hresolve
    rw [Guard.blocked_decide_iff, hplace]
    constructor
    · rintro ⟨hcovered, hrefused⟩
      exact .uncovered t hresolve hcovered hrefused
    · intro hrefused
      cases hrefused with
      | unverifiable u hresolve' =>
        rw [hresolve] at hresolve'
        exact absurd hresolve' nofun
      | uncovered t' hresolve' hcovered hrefused =>
        obtain rfl := Except.ok.inj (hresolve.symm.trans hresolve')
        exact ⟨hcovered, hrefused⟩

/-- What lies below a path that a rule bypasses: a recursive rule covers it as well, and then it is
refused alone only if it cannot be verified; a rule that is not recursive does not cover it, and
then another rule, or the boundary and the policy decide. -/
theorem bypass_below {paths : List AllowedPath} {loading : World}
    (hrules : loading.rulesOf paths = .ok ev.guard.rules)
    (heval : ev.evaluate w flags raw = .ok o) (hbypass : Remover.Allows o t true)
    (hbelow : t.resolved.parts <+: m) (hne : t.resolved.parts ≠ m)
    (hfind : w.tree.find? m = some e) (hfile : e.isDir = false) :
    (∃ r ∈ ev.guard.rules, r.covers t.resolved = true) ∧
    (∀ r ∈ ev.guard.rules, r.covers t.resolved = true →
      r.covers ⟨.single, m⟩ = r.recursive) ∧
    ∀ o', ev.evaluate w ⟨false, false⟩ (Path.mk .single m).text = .ok o' →
      (o'.blocked = true ↔ ev.RefusedAlone w m) ∧
      ((∃ r ∈ ev.guard.rules, r.covers t.resolved = true ∧ r.recursive = true) →
        (o'.blocked = true ↔
          ∃ u, w.resolve ev.base (Path.mk .single m).text = .error (.unverifiable u))) := by
  obtain ⟨-, -, -, -, hpermission⟩ := permission_of_evaluate heval hbypass
  have hcovered : covered ev.guard.rules t.resolved = true := by
    cases hpermission with
    | bypass hcovered => exact hcovered
  obtain ⟨r, hr, hcovers⟩ := List.any_eq_true.mp hcovered
  have hroot : t.resolved.root = .single :=
    (Rule.root_of_covers hcovers).trans (World.root_of_rulesOf hrules hr)
  have hreach : ∀ r ∈ ev.guard.rules, r.covers t.resolved = true →
      r.covers ⟨.single, m⟩ = r.recursive := by
    intro r hr hcovers
    rw [← hroot]
    exact Rule.covers_below hcovers hbelow hne
  refine ⟨⟨r, hr, hcovers⟩, hreach, fun o' halone => ?_⟩
  have hiff := blocked_alone_iff hfind hfile halone
  refine ⟨hiff, ?_⟩
  rintro ⟨r, hr, hcovers, hrecursive⟩
  rw [hiff]
  constructor
  · intro hrefused
    cases hrefused with
    | unverifiable u hresolve => exact ⟨u, hresolve⟩
    | uncovered t' hresolve huncovered hrefused =>
      have hany : covered ev.guard.rules ⟨.single, m⟩ = true :=
        List.any_eq_true.mpr ⟨r, hr, (hreach r hr hcovers).trans hrecursive⟩
      rw [hany] at huncovered
      exact absurd huncovered nofun
  · rintro ⟨u, hresolve⟩
    exact .unverifiable u hresolve

theorem allows_of_verdict {bypassed : Bool} (ht : o.target? = some t)
    (hv : o.verdict? = some (.allow bypassed)) : Remover.Allows o t bypassed := by
  obtain ⟨raw, finding⟩ := o
  match finding with
  | .judged t' (.verdict v) =>
    obtain rfl : t' = t := Option.some.inj ht
    obtain rfl : v = .allow bypassed := Option.some.inj hv
    rfl
  | .judged t' (.error _) | .judged t' .skipped => exact absurd hv nofun
  | .unverifiable b => exact absurd ht nofun

def outsideWorld (name : String) (e : Entry) : World where
  tree := (FileTree.empty.put ["p"] (.dir .nothing)).put ["o", "d", name] e
  cwd := "/p"
  env := []
  users := []
  ownHome := none
  git := none
  trashError := none

def ruled (recursive : Bool) : Evaluator :=
  ⟨Path.ofString "/p", [⟨Path.ofString "/o", recursive⟩], Path.ofString "/p", .open⟩

theorem not_blocked_outside : ∃ o,
    (ruled true).evaluate (outsideWorld "f" (.file ByteArray.empty .nothing)) ⟨false, false⟩
      (Path.mk .single ["o", "d", "f"]).text = .ok o ∧ o.blocked = false := by
  have hloaded : ((outsideWorld "f" (.file ByteArray.empty .nothing)).rulesOf
      [⟨"/o", true⟩]).toOption.map id = some (ruled true).guard.rules := by decide +kernel
  have hseen : ((ruled true).evaluate (outsideWorld "f" (.file ByteArray.empty .nothing))
      ⟨true, false⟩ "/o/d").toOption.map (fun o => (o.verdict?, o.target?.map Target.resolved)) =
        some (some (.allow true), some (Path.ofString "/o/d")) := by decide +kernel
  have hresolve : ((outsideWorld "f" (.file ByteArray.empty .nothing)).resolve (ruled true).base
      (Path.mk .single ["o", "d", "f"]).text).toOption.map Target.kind = some .file := by
    decide +kernel
  have halone : ((ruled true).evaluate (outsideWorld "f" (.file ByteArray.empty .nothing))
      ⟨false, false⟩ (Path.mk .single ["o", "d", "f"]).text).toOption.map Outcome.skipped =
        some false := by decide +kernel
  obtain ⟨rules, hrules, rfl⟩ := World.toOption_map_eq_some.mp hloaded
  obtain ⟨o, heval, houtcome⟩ := World.toOption_map_eq_some.mp hseen
  obtain ⟨hverdict, htarget⟩ := Prod.mk.inj houtcome
  obtain ⟨t, ht, hresolved⟩ := Option.map_eq_some_iff.mp htarget
  obtain ⟨t', hfound, -⟩ := World.toOption_map_eq_some.mp hresolve
  obtain ⟨o', heval', -⟩ := World.toOption_map_eq_some.mp halone
  have hbelow : t.resolved.parts <+: ["o", "d", "f"] := by
    rw [hresolved]
    decide
  have hne : t.resolved.parts ≠ ["o", "d", "f"] := by
    rw [hresolved]
    decide
  have hcovers : (Rule.mk (Path.ofString "/o") true).covers t.resolved = true := by
    rw [hresolved]
    decide
  obtain ⟨-, -, hreach⟩ :=
    bypass_below hrules heval (allows_of_verdict ht hverdict) hbelow hne rfl rfl
  have hblocked := (hreach o' heval').2 ⟨_, List.mem_singleton_self _, hcovers, rfl⟩
  refine ⟨o', heval', ?_⟩
  rw [← Bool.not_eq_true, hblocked]
  rintro ⟨u, hu⟩
  rw [hfound] at hu
  exact absurd hu nofun

/-- What goes with a directory that is bypassed would not be refused alone. -/
def ReachesNoFurther (ev : Evaluator) (w : World) (raw : String) : Prop :=
  ∀ force o t, ev.evaluate w ⟨true, force⟩ raw = .ok o → Remover.Allows o t true →
    t.isDir = true → ∀ m e, t.resolved.parts <+: m → w.tree.find? m = some e → e.isDir = false →
      ∀ o', ev.evaluate w ⟨false, false⟩ (Path.mk .single m).text = .ok o' → o'.blocked = false

theorem not_reachesNoFurther_of_blocked
    (hseen : (ev.evaluate w ⟨true, false⟩ raw).toOption.map
      (fun o => (o.verdict?, o.target?.map fun t => (t.isDir, t.resolved))) =
        some (some (.allow true), some (true, p)))
    (hbelow : p.parts <+: m) (hfind : w.tree.find? m = some e) (hfile : e.isDir = false)
    (halone : (ev.evaluate w ⟨false, false⟩ (Path.mk .single m).text).toOption.map
      Outcome.blocked = some true) : ¬ev.ReachesNoFurther w raw := by
  intro hreaches
  obtain ⟨o, heval, houtcome⟩ := World.toOption_map_eq_some.mp hseen
  obtain ⟨hverdict, htarget⟩ := Prod.mk.inj houtcome
  obtain ⟨t, ht, hfound⟩ := Option.map_eq_some_iff.mp htarget
  obtain ⟨hdir, rfl⟩ := Prod.mk.inj hfound
  obtain ⟨o', heval', hblocked⟩ := World.toOption_map_eq_some.mp halone
  have hfree := hreaches false o t heval (allows_of_verdict ht hverdict) hdir m e hbelow hfind hfile
    o' heval'
  rw [hblocked] at hfree
  exact absurd hfree nofun

/-- Under a rule that is not recursive a directory outside of the project goes with a file that is
refused alone; under a recursive one, with a link that leads to itself. -/
theorem not_reachesNoFurther :
    ¬(ruled false).ReachesNoFurther (outsideWorld "f" (.file ByteArray.empty .nothing)) "/o/d" ∧
      ¬(ruled true).ReachesNoFurther (outsideWorld "l" (.link "l")) "/o/d" := by
  have hfile : (Path.ofString "/o/d").parts <+: ["o", "d", "f"] := by decide
  have hlink : (Path.ofString "/o/d").parts <+: ["o", "d", "l"] := by decide
  constructor
  · exact not_reachesNoFurther_of_blocked (by decide +kernel) hfile rfl rfl (by decide +kernel)
  · exact not_reachesNoFurther_of_blocked (by decide +kernel) hlink rfl rfl (by decide +kernel)

end Evaluator
end DeletionGuard
