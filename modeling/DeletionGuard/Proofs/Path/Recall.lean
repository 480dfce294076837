import DeletionGuard.Proofs.Path.Clean

/-!
Lenient resolution and what it remembers. A link is remembered by the path that its target comes to
without any memory, so two resolutions that go on from one path with the same links begun end alike:
at the same path, or stuck with the same text.
-/
namespace DeletionGuard.World
variable {w : World} {here next p q known : Path} {memo memo' memo₁ memo₂ : Memo} {s text : String}
  {target : String} {pieces rest : List String} {a b n : Nat} {r r₁ r₂ : Progress}
  {enter : Path → String → Memo → Except Failure Progress}

/-- What a piece of text is to lenient resolution: a step to another path, or a link. -/
inductive Glance where
  | step (next : Path)
  | link (target : String)

def glance (w : World) (here : Path) (s : String) : Glance :=
  if !Path.isPart s then .step here
  else if s = ".." then .step here.ascend
  else
    match w.lstat (here.child s).text with
    | .ok (.link target) => .link target
    | _ => .step (here.child s)

def origin (here : Path) (text : String) : Path :=
  if Text.startsWith text "/" then ⟨.single, []⟩ else here

/-- Pieces come to a path over a number of links, each resolved anew wherever it is met. -/
inductive Unfolds (w : World) : Path → List String → Nat → Path → Prop where
  | done (here : Path) : Unfolds w here [] 0 here
  | step {here next q : Path} {s : String} {rest : List String} {n : Nat}
      (hglance : w.glance here s = .step next) (hrest : Unfolds w next rest n q) :
      Unfolds w here (s :: rest) n q
  | link {here known q : Path} {s target : String} {rest : List String} {a b : Nat}
      (hglance : w.glance here s = .link target)
      (htarget : Unfolds w (origin here target) (Text.cut '/' target) a known)
      (hrest : Unfolds w known rest b q) : Unfolds w here (s :: rest) (a + b + 1) q

theorem Unfolds.unique (h : w.Unfolds here pieces n p) (h' : w.Unfolds here pieces a q) :
    n = a ∧ p = q := by
  induction h generalizing a q with
  | done here =>
    cases h'
    exact ⟨rfl, rfl⟩
  | step hglance hrest ih =>
    cases h' with
    | step hglance' hrest' =>
      rw [hglance] at hglance'
      obtain rfl := Glance.step.inj hglance'
      exact ih hrest'
    | link hglance' _ _ =>
      rw [hglance] at hglance'
      exact absurd hglance' nofun
  | link hglance htarget hrest ihtarget ihrest =>
    cases h' with
    | step hglance' _ =>
      rw [hglance] at hglance'
      exact absurd hglance' nofun
    | link hglance' htarget' hrest' =>
      rw [hglance] at hglance'
      obtain rfl := Glance.link.inj hglance'
      obtain ⟨rfl, rfl⟩ := ihtarget htarget'
      obtain ⟨rfl, rfl⟩ := ihrest hrest'
      exact ⟨rfl, rfl⟩

def Stands (w : World) (p : Path) (n : Nat) (q : Path) : Prop :=
  ∃ here s target, p = here.child s ∧ w.glance here s = .link target ∧
    w.Unfolds (origin here target) (Text.cut '/' target) n q

theorem stands_child (hglance : w.glance here s = .link target)
    (h : w.Stands (here.child s) n q) :
    w.Unfolds (origin here target) (Text.cut '/' target) n q := by
  obtain ⟨here', s', target', hchild, hglance', hunfolds⟩ := h
  obtain ⟨rfl, rfl⟩ : here = here' ∧ s = s' := by
    obtain ⟨root, parts⟩ := here
    obtain ⟨root', parts'⟩ := here'
    obtain ⟨rfl, hparts⟩ := Path.mk.inj hchild
    obtain ⟨rfl, rfl⟩ := List.append_singleton_inj.mp hparts
    exact ⟨rfl, rfl⟩
  rw [hglance] at hglance'
  rwa [Glance.link.inj hglance']

theorem scan_step_cases (hglance : w.glance here s = .step next) (memo : Memo) :
    (∀ back, w.scan false enter here (s :: back) memo = w.scan false enter next back memo) ∨
      w.lstat (here.child s).text = .error .nulInPath ∧ Path.isPart s = true ∧
        ∀ back, w.scan false enter here (s :: back) memo = .error .nulInPath := by
  unfold glance at hglance
  split at hglance
  · rename_i hpart
    obtain rfl := Glance.step.inj hglance
    exact .inl fun back => scan_skip (by simpa using hpart)
  · rename_i hpart
    have hpart' : Path.isPart s = true := by simpa using hpart
    split at hglance
    · rename_i hup
      obtain rfl := Glance.step.inj hglance
      exact .inl fun back => by rw [hup, scan_up]
    · rename_i hup
      split at hglance
      · exact absurd hglance nofun
      · rename_i hseen
        obtain rfl := Glance.step.inj hglance
        cases hlstat : w.lstat (here.child s).text with
        | error f =>
          by_cases hnul : f = .nulInPath
          · refine .inr ⟨by rw [hnul], hpart', fun back => ?_⟩
            rw [scan, if_neg hpart, if_neg hup]
            simp [hlstat, hnul]
          · exact .inl fun back => scan_unseen hpart' hup hlstat hnul
        | ok e =>
          cases e with
          | link target => exact absurd hlstat (hseen target)
          | file | dir | fifo => exact .inl fun back => scan_plain hpart' hup hlstat rfl

theorem scan_step (hglance : w.glance here s = .step next)
    (h : w.scan false enter here (s :: rest) memo = .ok r) :
    w.scan false enter next rest memo = .ok r := by
  obtain hstep | ⟨-, -, hnul⟩ := scan_step_cases hglance memo
  · rwa [hstep] at h
  · rw [hnul] at h
    exact absurd h nofun

theorem scan_link (hglance : w.glance here s = .link target) :
    w.scan false enter here (s :: rest) memo =
      match memo.lookup (here.child s) with
      | some (some known) => w.scan false enter known rest memo
      | some none => .ok (.stuck ((here.child s).join (remainder rest)))
      | none =>
        match enter here target ((here.child s, none) :: memo) with
        | .error f => .error f
        | .ok (.stuck path) => .ok (.stuck (path.join (remainder rest)))
        | .ok (.reached known memo') =>
          w.scan false enter known rest ((here.child s, some known) :: memo') := by
  unfold glance at hglance
  split at hglance
  · cases hglance
  · rename_i hpart
    split at hglance
    · cases hglance
    · rename_i hup
      split at hglance
      · rename_i target' hseen
        obtain rfl := Glance.link.inj hglance
        rw [scan, if_neg hpart, if_neg hup]
        simp only [hseen]
        rfl
      · cases hglance

/-- Every finished link is remembered by what it stands for. -/
def Memo.Recalls (w : World) (memo : Memo) : Prop :=
  ∀ p q, memo.lookup p = some (some q) → ∃ n, w.Stands p n q

def Memo.Alike (memo' memo : Memo) : Prop :=
  ∀ p, memo'.lookup p = some none ↔ memo.lookup p = some none

theorem Memo.Recalls.nil (w : World) : Memo.Recalls w [] :=
  fun _ _ hlookup => absurd hlookup nofun

theorem Memo.Recalls.cons_none (h : Memo.Recalls w memo) (p : Path) :
    Memo.Recalls w ((p, none) :: memo) := by
  intro p' q hlookup
  rw [List.lookup_cons] at hlookup
  split at hlookup
  · exact absurd hlookup nofun
  · exact h p' q hlookup

theorem Memo.Recalls.cons_some (h : Memo.Recalls w memo) (hstands : w.Stands p n q) :
    Memo.Recalls w ((p, some q) :: memo) := by
  intro p' q' hlookup
  rw [List.lookup_cons] at hlookup
  split at hlookup
  · rename_i heq
    obtain rfl := beq_iff_eq.mp heq
    obtain rfl := Option.some.inj (Option.some.inj hlookup)
    exact ⟨n, hstands⟩
  · exact h p' q' hlookup

theorem Memo.Alike.refl (memo : Memo) : memo.Alike memo :=
  fun _ => Iff.rfl

theorem Memo.Alike.symm (h : memo'.Alike memo) : memo.Alike memo' :=
  fun p => (h p).symm

theorem Memo.Alike.trans (h : memo₂.Alike memo₁) (h' : memo₁.Alike memo) : memo₂.Alike memo :=
  fun p => (h p).trans (h' p)

theorem Memo.Alike.cons_none (h : memo'.Alike memo) (p : Path) :
    Memo.Alike ((p, none) :: memo') ((p, none) :: memo) := by
  intro p'
  rw [List.lookup_cons, List.lookup_cons]
  split
  · exact Iff.rfl
  · exact h p'

theorem Memo.Alike.finished (h : memo'.Alike ((p, none) :: memo)) (hnew : memo.lookup p = none)
    (known : Path) : Memo.Alike ((p, some known) :: memo') memo := by
  intro p'
  rw [List.lookup_cons]
  cases heq : p' == p with
  | true =>
    obtain rfl := beq_iff_eq.mp heq
    simp [hnew]
  | false =>
    have hp' := h p'
    rwa [List.lookup_cons, heq] at hp'

/-- Resolution that reaches an end comes to it without memory, and remembers rightly. -/
structure Recalled (w : World) (here : Path) (pieces : List String) (memo : Memo) (q : Path)
    (memo' : Memo) : Prop where
  unfolds : ∃ n, w.Unfolds here pieces n q
  recalls : memo'.Recalls w
  alike : memo'.Alike memo

theorem scan_recalled
    (henter : ∀ here target memo q memo', Memo.Recalls w memo →
      enter here target memo = .ok (.reached q memo') →
      w.Recalled (origin here target) (Text.cut '/' target) memo q memo')
    (hmemo : Memo.Recalls w memo)
    (h : w.scan false enter here pieces memo = .ok (.reached q memo')) :
    w.Recalled here pieces memo q memo' := by
  induction pieces generalizing here memo with
  | nil =>
    obtain ⟨rfl, rfl⟩ : here = q ∧ memo = memo' := by simpa [scan] using h
    exact ⟨⟨0, .done here⟩, hmemo, .refl memo⟩
  | cons s rest ih =>
    cases hglance : w.glance here s with
    | step next =>
      obtain ⟨⟨n, hunfolds⟩, hrecalls, halike⟩ := ih hmemo (scan_step hglance h)
      exact ⟨⟨n, .step hglance hunfolds⟩, hrecalls, halike⟩
    | link target =>
      rw [scan_link hglance] at h
      split at h
      · rename_i known hlookup
        obtain ⟨a, hstands⟩ := hmemo _ _ hlookup
        obtain ⟨⟨b, hunfolds⟩, hrecalls, halike⟩ := ih hmemo h
        exact ⟨⟨_, .link hglance (stands_child hglance hstands) hunfolds⟩, hrecalls, halike⟩
      · cases h
      · rename_i hnew
        split at h
        · cases h
        · cases h
        · rename_i known memo₁ hentered
          obtain ⟨⟨a, htarget⟩, hrecalls, halike⟩ :=
            henter _ _ _ _ _ (hmemo.cons_none (here.child s)) hentered
          have hstands : w.Stands (here.child s) a known := ⟨here, s, target, rfl, hglance, htarget⟩
          obtain ⟨⟨b, hunfolds⟩, hrecalls', halike'⟩ := ih (hrecalls.cons_some hstands) h
          exact ⟨⟨_, .link hglance htarget hunfolds⟩, hrecalls',
            halike'.trans (halike.finished hnew known)⟩

theorem resolveText_recalled {depth : Nat} (hmemo : Memo.Recalls w memo)
    (h : w.resolveText false depth here text memo = .ok (.reached q memo')) :
    w.Recalled (origin here text) (Text.cut '/' text) memo q memo' := by
  induction depth generalizing here text memo q memo' with
  | zero => exact absurd h nofun
  | succ depth ih =>
    rw [resolveText] at h
    exact scan_recalled (fun here target memo q memo' hmemo h => ih hmemo h) hmemo h

/-- How resolution comes over a link: it goes on from what the link stands for, or it is stuck at a
link that is begun, be it this one or one that the target of this one leads to. -/
inductive Crossing (w : World) (depth : Nat) (here : Path) (s : String) (target : String)
    (rest : List String) (memo : Memo) (r : Progress) : Prop where
  | passed (known : Path) (n : Nat) (memo' : Memo) (hfree : memo.lookup (here.child s) ≠ some none)
      (hstands : w.Stands (here.child s) n known) (hrecalls : memo'.Recalls w)
      (halike : memo'.Alike memo)
      (hrest : w.scan false (w.resolveText false depth) known rest memo' = .ok r)
  | begun (hbegun : memo.lookup (here.child s) = some none)
      (hstuck : r = .stuck ((here.child s).join (remainder rest)))
  | caught (path : Path) (hfree : memo.lookup (here.child s) ≠ some none)
      (hentered : w.resolveText false depth here target ((here.child s, none) :: memo) =
        .ok (.stuck path))
      (hstuck : r = .stuck (path.join (remainder rest)))

theorem crossing_of_scan {depth : Nat} (hglance : w.glance here s = .link target)
    (hmemo : Memo.Recalls w memo)
    (h : w.scan false (w.resolveText false depth) here (s :: rest) memo = .ok r) :
    Crossing w depth here s target rest memo r := by
  rw [scan_link hglance] at h
  cases hlookup : memo.lookup (here.child s) with
  | none =>
    have hfree : memo.lookup (here.child s) ≠ some none := by simp [hlookup]
    rw [hlookup] at h
    dsimp only at h
    split at h
    · exact absurd h nofun
    · rename_i path hentered
      exact .caught path hfree hentered (Except.ok.inj h).symm
    · rename_i known memo' hentered
      obtain ⟨⟨n, htarget⟩, hrecalls, halike⟩ :=
        resolveText_recalled (hmemo.cons_none (here.child s)) hentered
      have hstands : w.Stands (here.child s) n known := ⟨here, s, target, rfl, hglance, htarget⟩
      exact .passed known n _ hfree hstands (hrecalls.cons_some hstands)
        (halike.finished hlookup known) h
  | some found =>
    rw [hlookup] at h
    cases found with
    | none => exact .begun hlookup (Except.ok.inj h).symm
    | some known =>
      obtain ⟨n, hstands⟩ := hmemo _ _ hlookup
      exact .passed known n memo (by simp [hlookup]) hstands hmemo (.refl memo) h

/-- Whatever a link that is begun stands for, it takes no fewer links than a number. -/
def Memo.Awaits (w : World) (memo : Memo) (n : Nat) : Prop :=
  ∀ p a q, memo.lookup p = some none → w.Stands p a q → n ≤ a

theorem Memo.Awaits.nil (w : World) (n : Nat) : Memo.Awaits w [] n :=
  fun _ _ _ hlookup => absurd hlookup nofun

theorem Memo.Awaits.of_alike (h : Memo.Awaits w memo n) (halike : memo'.Alike memo) (hle : a ≤ n) :
    Memo.Awaits w memo' a :=
  fun p b q hlookup hstands => Nat.le_trans hle (h p b q ((halike p).mp hlookup) hstands)

theorem Memo.Awaits.cons_none (h : Memo.Awaits w memo n) (hle : a ≤ n)
    (hstands : w.Stands p a q) : Memo.Awaits w ((p, none) :: memo) a := by
  intro p' b q' hlookup hstands'
  rw [List.lookup_cons] at hlookup
  split at hlookup
  · rename_i heq
    obtain rfl := beq_iff_eq.mp heq
    obtain ⟨here, s, target, rfl, hglance, hunfolds⟩ := hstands
    exact Nat.le_of_eq (hunfolds.unique (stands_child hglance hstands')).1
  · exact Nat.le_trans hle (h p' b q' hlookup hstands')

theorem scan_ne_stuck {depth : Nat}
    (henter : ∀ here target memo a q path, Memo.Recalls w memo → Memo.Awaits w memo a →
      w.Unfolds (origin here target) (Text.cut '/' target) a q →
      w.resolveText false depth here target memo ≠ .ok (.stuck path))
    (hmemo : Memo.Recalls w memo) (hawaits : Memo.Awaits w memo n)
    (hunfolds : w.Unfolds here pieces n q) :
    w.scan false (w.resolveText false depth) here pieces memo ≠ .ok (.stuck p) := by
  induction pieces generalizing here memo n with
  | nil => exact nofun
  | cons s rest ih =>
    intro h
    cases hunfolds with
    | step hglance hrest => exact ih hmemo hawaits hrest (scan_step hglance h)
    | @link _ known _ _ target _ a b hglance htarget hrest =>
      have hstands : w.Stands (here.child s) a known := ⟨here, s, target, rfl, hglance, htarget⟩
      cases crossing_of_scan hglance hmemo h with
      | passed known' a' memo' hfree hstands' hrecalls halike h =>
        obtain ⟨-, rfl⟩ := htarget.unique (stands_child hglance hstands')
        exact ih hrecalls (hawaits.of_alike halike (by omega)) hrest h
      | begun hbegun hstuck =>
        -- the link would take fewer links than itself
        have hshort := hawaits _ _ _ hbegun hstands
        omega
      | caught path hfree hentered hstuck =>
        have hbefore : Memo.Awaits w _ a := hawaits.cons_none (by omega) hstands
        exact henter _ _ _ _ _ _ (hmemo.cons_none (here.child s)) hbefore htarget hentered

theorem resolveText_lenient_ne_stuck {depth : Nat} (hmemo : Memo.Recalls w memo)
    (hawaits : Memo.Awaits w memo n)
    (hunfolds : w.Unfolds (origin here text) (Text.cut '/' text) n q) :
    w.resolveText false depth here text memo ≠ .ok (.stuck p) := by
  induction depth generalizing here text memo n q p with
  | zero => exact nofun
  | succ depth ih =>
    rw [resolveText]
    exact scan_ne_stuck (fun _ _ _ _ _ _ hmemo hawaits hunfolds => ih hmemo hawaits hunfolds)
      hmemo hawaits hunfolds

/-- If a link that is begun stands for a path, pieces come to a path over no more links. -/
def Memo.Follows (w : World) (memo : Memo) (here : Path) (pieces : List String) : Prop :=
  ∀ p a q, memo.lookup p = some none → w.Stands p a q →
    ∃ n r, n ≤ a ∧ w.Unfolds here pieces n r

theorem Memo.Follows.step (h : Memo.Follows w memo here (s :: rest))
    (hglance : w.glance here s = .step next) : Memo.Follows w memo next rest := by
  intro p a q hlookup hstands
  obtain ⟨n, r, hle, hunfolds⟩ := h p a q hlookup hstands
  cases hunfolds with
  | step hglance' hrest =>
    rw [hglance] at hglance'
    obtain rfl := Glance.step.inj hglance'
    exact ⟨n, r, hle, hrest⟩
  | link hglance' _ _ =>
    rw [hglance] at hglance'
    exact absurd hglance' nofun

theorem Memo.Follows.link (h : Memo.Follows w memo here (s :: rest))
    (hglance : w.glance here s = .link target) (hlookup : memo.lookup p = some none)
    (hstands : w.Stands p n q) :
    ∃ a b known r, a + b + 1 ≤ n ∧ w.Unfolds (origin here target) (Text.cut '/' target) a known ∧
      w.Unfolds known rest b r := by
  obtain ⟨m, r, hle, hunfolds⟩ := h p n q hlookup hstands
  cases hunfolds with
  | step hglance' _ =>
    rw [hglance] at hglance'
    exact absurd hglance' nofun
  | link hglance' htarget hrest =>
    rw [hglance] at hglance'
    obtain rfl := Glance.link.inj hglance'
    exact ⟨_, _, _, r, hle, htarget, hrest⟩

theorem Memo.Follows.entered (h : Memo.Follows w memo here (s :: rest))
    (hglance : w.glance here s = .link target) :
    Memo.Follows w ((here.child s, none) :: memo) (origin here target) (Text.cut '/' target) := by
  intro p n q hlookup hstands
  rw [List.lookup_cons] at hlookup
  split at hlookup
  · rename_i heq
    obtain rfl := beq_iff_eq.mp heq
    exact ⟨n, q, Nat.le_refl n, stands_child hglance hstands⟩
  · obtain ⟨a, b, known, r, hle, htarget, -⟩ := h.link hglance hlookup hstands
    exact ⟨a, known, by omega, htarget⟩

theorem Memo.Follows.passed (h : Memo.Follows w memo here (s :: rest))
    (hglance : w.glance here s = .link target) (hknown : w.Stands (here.child s) a known)
    (halike : memo'.Alike memo) : Memo.Follows w memo' known rest := by
  intro p n q hlookup hstands
  obtain ⟨a', b, known', r, hle, htarget, hrest⟩ :=
    h.link hglance ((halike p).mp hlookup) hstands
  obtain ⟨-, rfl⟩ := htarget.unique (stands_child hglance hknown)
  exact ⟨b, r, by omega, hrest⟩

theorem Memo.Follows.awaits (h : Memo.Follows w memo here (s :: rest))
    (hglance : w.glance here s = .link target) (hknown : w.Stands (here.child s) a known) :
    Memo.Awaits w memo a := by
  intro p n q hlookup hstands
  obtain ⟨a', b, known', r, hle, htarget, -⟩ := h.link hglance hlookup hstands
  obtain ⟨rfl, -⟩ := htarget.unique (stands_child hglance hknown)
  omega

theorem not_caught {depth : Nat} (hfollows : Memo.Follows w memo here (s :: rest))
    (hmemo : Memo.Recalls w memo) (hglance : w.glance here s = .link target)
    (hstands : w.Stands (here.child s) n known) :
    w.resolveText false depth here target ((here.child s, none) :: memo) ≠ .ok (.stuck p) := by
  have hawaits := (hfollows.awaits hglance hstands).cons_none (Nat.le_refl n) hstands
  exact resolveText_lenient_ne_stuck (hmemo.cons_none (here.child s)) hawaits
    (stands_child hglance hstands)

theorem scan_stuck_eq {depth : Nat}
    (henter : ∀ here target memo₁ memo₂ p q, Memo.Recalls w memo₁ → Memo.Recalls w memo₂ →
      memo₂.Alike memo₁ →
      Memo.Follows w memo₁ (origin here target) (Text.cut '/' target) →
      w.resolveText false depth here target memo₁ = .ok (.stuck p) →
      w.resolveText false depth here target memo₂ = .ok (.stuck q) → p = q)
    (hmemo₁ : Memo.Recalls w memo₁) (hmemo₂ : Memo.Recalls w memo₂) (halike : memo₂.Alike memo₁)
    (hfollows : Memo.Follows w memo₁ here pieces)
    (h₁ : w.scan false (w.resolveText false depth) here pieces memo₁ = .ok (.stuck p))
    (h₂ : w.scan false (w.resolveText false depth) here pieces memo₂ = .ok (.stuck q)) : p = q := by
  induction pieces generalizing here memo₁ memo₂ with
  | nil => exact absurd h₁ nofun
  | cons s rest ih =>
    cases hglance : w.glance here s with
    | step next =>
      exact ih hmemo₁ hmemo₂ halike (hfollows.step hglance)
        (scan_step hglance h₁) (scan_step hglance h₂)
    | link target =>
      have hfollows₂ : Memo.Follows w memo₂ here (s :: rest) := fun p a q hlookup =>
        hfollows p a q ((halike p).mp hlookup)
      have hsame := halike (here.child s)
      cases crossing_of_scan hglance hmemo₁ h₁ with
      | passed known a memo₁' hfree hstands hrecalls halike₁ hrest =>
        cases crossing_of_scan hglance hmemo₂ h₂ with
        | passed known' a' memo₂' _ hstands' hrecalls' halike₂ hrest' =>
          obtain ⟨-, rfl⟩ :=
            (stands_child hglance hstands).unique (stands_child hglance hstands')
          exact ih hrecalls hrecalls' (halike₂.trans (halike.trans halike₁.symm))
            (hfollows.passed hglance hstands halike₁) hrest hrest'
        | begun hbegun _ => exact absurd (hsame.mp hbegun) hfree
        | caught path _ hentered _ =>
          exact absurd hentered (not_caught hfollows₂ hmemo₂ hglance hstands)
      | begun hbegun hstuck =>
        cases crossing_of_scan hglance hmemo₂ h₂ with
        | passed _ _ _ hfree _ _ _ _ => exact absurd (hsame.mpr hbegun) hfree
        | begun _ hstuck' =>
          rw [Progress.stuck.inj hstuck, Progress.stuck.inj hstuck']
        | caught _ hfree _ _ => exact absurd (hsame.mpr hbegun) hfree
      | caught path hfree hentered hstuck =>
        cases crossing_of_scan hglance hmemo₂ h₂ with
        | passed known a _ _ hstands _ _ _ =>
          exact absurd hentered (not_caught hfollows hmemo₁ hglance hstands)
        | begun hbegun _ => exact absurd (hsame.mp hbegun) hfree
        | caught path' _ hentered' hstuck' =>
          obtain rfl := henter _ _ _ _ _ _ (hmemo₁.cons_none (here.child s))
            (hmemo₂.cons_none (here.child s)) (halike.cons_none (here.child s))
            (hfollows.entered hglance) hentered hentered'
          rw [Progress.stuck.inj hstuck, Progress.stuck.inj hstuck']

theorem resolveText_stuck_eq {depth : Nat} (hmemo₁ : Memo.Recalls w memo₁)
    (hmemo₂ : Memo.Recalls w memo₂) (halike : memo₂.Alike memo₁)
    (hfollows : Memo.Follows w memo₁ (origin here text) (Text.cut '/' text))
    (h₁ : w.resolveText false depth here text memo₁ = .ok (.stuck p))
    (h₂ : w.resolveText false depth here text memo₂ = .ok (.stuck q)) : p = q := by
  induction depth generalizing here text memo₁ memo₂ p q with
  | zero => exact absurd h₁ nofun
  | succ depth ih =>
    rw [resolveText] at h₁ h₂
    exact scan_stuck_eq (fun _ _ _ _ _ _ hmemo₁ hmemo₂ halike hfollows h₁ h₂ =>
      ih hmemo₁ hmemo₂ halike hfollows h₁ h₂) hmemo₁ hmemo₂ halike hfollows h₁ h₂

def Progress.path : Progress → Path
  | .reached q _ => q
  | .stuck q => q

/-- With no link begun it does not matter which links have been met before. -/
theorem scan_path_eq {depth : Nat} (hmemo₁ : Memo.Recalls w memo₁) (hmemo₂ : Memo.Recalls w memo₂)
    (hfresh₁ : memo₁.Alike []) (hfresh₂ : memo₂.Alike [])
    (h₁ : w.scan false (w.resolveText false depth) here pieces memo₁ = .ok r₁)
    (h₂ : w.scan false (w.resolveText false depth) here pieces memo₂ = .ok r₂) :
    r₁.path = r₂.path := by
  have hrecalled {memo memo' : Memo} {q : Path} (hmemo : Memo.Recalls w memo)
      (h : w.scan false (w.resolveText false depth) here pieces memo = .ok (.reached q memo')) :
      ∃ n, w.Unfolds here pieces n q :=
    (scan_recalled (fun _ _ _ _ _ hmemo h => resolveText_recalled hmemo h) hmemo h).unfolds
  have hstuck {memo : Memo} {n : Nat} {p q : Path} (hmemo : Memo.Recalls w memo)
      (hfresh : memo.Alike []) (hunfolds : w.Unfolds here pieces n q) :
      w.scan false (w.resolveText false depth) here pieces memo ≠ .ok (.stuck p) :=
    scan_ne_stuck (fun _ _ _ _ _ _ => resolveText_lenient_ne_stuck) hmemo
      ((Memo.Awaits.nil w n).of_alike hfresh (Nat.le_refl n)) hunfolds
  cases r₁ with
  | reached q₁ memo₁' =>
    obtain ⟨n, hunfolds⟩ := hrecalled hmemo₁ h₁
    cases r₂ with
    | reached q₂ memo₂' =>
      obtain ⟨m, hunfolds'⟩ := hrecalled hmemo₂ h₂
      exact (hunfolds.unique hunfolds').2
    | stuck q₂ => exact absurd h₂ (hstuck hmemo₂ hfresh₂ hunfolds)
  | stuck q₁ =>
    cases r₂ with
    | reached q₂ memo₂' =>
      obtain ⟨m, hunfolds'⟩ := hrecalled hmemo₂ h₂
      exact absurd h₁ (hstuck hmemo₁ hfresh₁ hunfolds')
    | stuck q₂ =>
      have hfollows : Memo.Follows w memo₁ here pieces := fun p _ _ hlookup =>
        absurd ((hfresh₁ p).mp hlookup) nofun
      exact scan_stuck_eq (fun _ _ _ _ _ _ => resolveText_stuck_eq) hmemo₁ hmemo₂
        (hfresh₂.trans hfresh₁.symm) hfollows h₁ h₂

theorem scan_append_lenient {depth : Nat} {front : List String}
    (henter : ∀ here target memo r, w.resolveText true depth here target memo = .ok r →
      w.resolveText false depth here target memo = .ok r)
    (h : w.scan true (w.resolveText true depth) here front memo = .ok (.reached q memo'))
    (back : List String) :
    w.scan false (w.resolveText false depth) here (front ++ back) memo =
      w.scan false (w.resolveText false depth) q back memo' := by
  induction front generalizing here memo with
  | nil =>
    obtain ⟨rfl, rfl⟩ : here = q ∧ memo = memo' := by simpa [scan] using h
    rfl
  | cons s front ih =>
    cases piece_of_scan h with
    | nothing hpart h => exact (scan_skip hpart).trans (ih h)
    | up hup h =>
      rw [hup, List.cons_append, scan_up]
      exact ih h
    | plain e hplain hpart hup hseen h => exact (scan_plain hpart hup hseen hplain).trans (ih h)
    | known target known hpart hup hseen hknown h =>
      exact (scan_known hpart hup hseen hknown).trans (ih h)
    | entered target known memo₁ hpart hup hseen hentered hrest =>
      cases hlookup : memo.lookup (here.child s) with
      | none =>
        exact (scan_entered hpart hup hseen hlookup (henter _ _ _ _ hentered)).trans (ih hrest)
      | some found =>
        cases found with
        | none =>
          rw [scan_circle hpart hup hseen hlookup] at h
          split at h <;> cases h
        | some known =>
          rw [scan_known hpart hup hseen hlookup] at h
          exact (scan_known hpart hup hseen hlookup).trans (ih h)
    | unseen _ hlenient _ _ _ _ => cases hlenient
    | circle _ hlenient _ => cases hlenient
    | caught _ _ _ _ hstuck => cases hstuck

theorem scan_lenient {depth : Nat}
    (henter : ∀ here target memo r, w.resolveText true depth here target memo = .ok r →
      w.resolveText false depth here target memo = .ok r)
    (h : w.scan true (w.resolveText true depth) here pieces memo = .ok (.reached q memo')) :
    w.scan false (w.resolveText false depth) here pieces memo = .ok (.reached q memo') := by
  have happend := scan_append_lenient henter h []
  rwa [List.append_nil] at happend

theorem resolveText_lenient {depth : Nat} (h : w.resolveText true depth here text memo = .ok r) :
    w.resolveText false depth here text memo = .ok r := by
  induction depth generalizing here text memo r with
  | zero => exact absurd h nofun
  | succ depth ih =>
    obtain ⟨q, memo', rfl⟩ := resolveText_strict h
    rw [resolveText] at h ⊢
    exact scan_lenient (fun _ _ _ _ h => ih h) h

theorem exists_scan_name (hp : p.Proper) (habs : p.isAbsolute = true) (hne : p.parts ≠ [])
    (hparent : w.resolveStrict p.parent = .ok here) (h : w.resolveLenient p = .ok q) :
    ∃ memo r, Memo.Recalls w memo ∧ memo.Alike [] ∧ w.anchor r.path = .ok q ∧
      w.scan false (w.resolveText false (w.tree.entries.length * FileTree.maxPath)) here [p.name]
        memo = .ok r := by
  have habs' : p.parent.isAbsolute = true := habs
  have hreal := realPath_of_resolveLenient h
  obtain ⟨-, memo, hreached⟩ := reached_of_resolveStrict habs' hparent
  rw [maxDepth, resolveText_text hp.parent, if_pos habs'] at hreached
  have hrecalled := scan_recalled (fun _ _ _ _ _ => resolveText_recalled) (.nil w)
    (scan_lenient (fun _ _ _ _ => resolveText_lenient) hreached)
  have hparts : p.parts = p.parent.parts ++ [p.name] :=
    congrArg Path.parts (Path.child_parent_name hne).symm
  have hscan : w.resolveText false w.maxDepth ⟨.relative, []⟩ p.text [] =
      w.scan false (w.resolveText false (w.tree.entries.length * FileTree.maxPath)) here [p.name]
        memo := by
    rw [maxDepth, resolveText_text hp, if_pos habs, hparts]
    exact scan_append_lenient (fun _ _ _ _ => resolveText_lenient) hreached [p.name]
  rw [realPath, hscan] at hreal
  split at hreal
  · cases hreal
  · rename_i r memo' hr
    exact ⟨memo, .reached r memo', hrecalled.recalls, hrecalled.alike, hreal, hr⟩
  · rename_i r hr
    exact ⟨memo, .stuck r, hrecalled.recalls, hrecalled.alike, hreal, hr⟩

/-- Where the lenient form comes to depends on the directory and the name only. -/
theorem resolveLenient_eq {p₁ p₂ q₁ q₂ : Path} (hp₁ : p₁.Proper) (hp₂ : p₂.Proper)
    (habs₁ : p₁.isAbsolute = true) (habs₂ : p₂.isAbsolute = true) (hne₁ : p₁.parts ≠ [])
    (hne₂ : p₂.parts ≠ []) (hname : p₁.name = p₂.name)
    (hparent₁ : w.resolveStrict p₁.parent = .ok here)
    (hparent₂ : w.resolveStrict p₂.parent = .ok here) (h₁ : w.resolveLenient p₁ = .ok q₁)
    (h₂ : w.resolveLenient p₂ = .ok q₂) : q₁ = q₂ := by
  obtain ⟨memo₁, r₁, hmemo₁, hfresh₁, hanchor₁, hscan₁⟩ :=
    exists_scan_name hp₁ habs₁ hne₁ hparent₁ h₁
  obtain ⟨memo₂, r₂, hmemo₂, hfresh₂, hanchor₂, hscan₂⟩ :=
    exists_scan_name hp₂ habs₂ hne₂ hparent₂ h₂
  rw [hname] at hscan₁
  rw [scan_path_eq hmemo₁ hmemo₂ hfresh₁ hfresh₂ hscan₁ hscan₂, hanchor₂] at hanchor₁
  exact (Except.ok.inj hanchor₁).symm

end DeletionGuard.World
