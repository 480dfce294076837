import DeletionGuard.Proofs.Run.Accounting
import DeletionGuard.Proofs.Run.Wording

/-!
What a run prints about its outcomes. A notice is printed about each removal and a complaint about
each refusal and failure, in order and word for word. The exceptions are a complaint that repeats an
argument whose first bracket closes and whose last one opens a tag, and a complaint in which the
colon behind the argument ends the code of an emoji.
-/
namespace DeletionGuard
open Console (Item)
open Markup
variable {s : Remover} {w : World} {r r' : Removals} {o : Outcome} {outcomes : List Outcome}
  {raw m : String} {ev : Evaluator} {flags : Flags} {raws : List String}

/-- A text that is shown as it is: all of its characters, and no emoji in place of some of them. -/
structure Markup.Legible (e : Emoji) (text : String) : Prop where
  literal : Literal text
  codeless : e.Codeless text.toList

theorem Markup.legible_of_count {e : Emoji} {text : String} (h : Literal text)
    (hcount : text.toList.count ':' ≤ 1) : Legible e text :=
  ⟨h, e.codeless_of_count hcount⟩

namespace Remover

def message? (s : Remover) (w : World) (o : Outcome) : Option String :=
  match o.finding with
  | .judged _ .skipped => none
  | .judged _ (.error e) => some e.message
  | .unverifiable b | .judged _ (.verdict (.block b)) => some (b.explain s.projectRoot)
  | .judged t (.verdict (.allow _)) =>
    match (s.remove w t).2 with
    | none => none
    | some f =>
      if f.isSystem then
        some (OperationError.message ⟨.removalFailed, Path.ofString o.raw, f.reason⟩)
      else none

structure Lines where
  out : List Item
  err : List Item
  ended : Bool

def Lines.append (a b : Lines) : Lines :=
  ⟨a.out ++ b.out, a.err ++ b.err, b.ended⟩

/-- What is to be printed about an outcome. A removal that fails for a reason of the program's own
ends the run without a word. -/
def lines (s : Remover) (w : World) (o : Outcome) : Lines where
  out :=
    match o.finding with
    | .judged t (.verdict (.allow bypassed)) =>
      if (s.remove w t).2 = none then [.line (s.noticeText o.raw bypassed ++ "\n")] else []
    | _ => []
  err :=
    match s.message? w o with
    | some m => [.line (complaintText o.raw m ++ "\n")]
    | none => []
  ended :=
    match o.finding with
    | .judged t (.verdict (.allow _)) => (s.remove w t).2.any (!·.isSystem)
    | _ => false

def script (s : Remover) (w : World) : List Outcome → Lines
  | [] => ⟨[], [], false⟩
  | o :: rest =>
    if (s.lines w o).ended then s.lines w o else (s.lines w o).append (script s (s.clear w o) rest)

/-- Nothing else is printed, and nothing else ends the run. -/
structure Adds (r r' : Removals) (l : Lines) : Prop where
  out : r'.out = r.out ++ l.out
  err : r'.err = r.err ++ l.err
  ended : r'.crash.isSome = l.ended

def Reports (s : Remover) (r : Removals) (o : Outcome) : Prop :=
  Adds r (s.act r o) (s.lines r.world o)

inductive Says (s : Remover) (r : Removals) (o : Outcome) : Removals → Prop where
  | nothing {r' : Removals} (hm : s.message? r.world o = none)
      (hnone : (s.lines r.world o).out = []) (hout : r'.out = r.out) (herr : r'.err = r.err)
      (hended : r'.crash.isSome = (s.lines r.world o).ended) : Says s r o r'
  | complaint {r₁ : Removals} {m : String} {add : Tally → Tally}
      (hm : s.message? r.world o = some m) (hlines : s.lines r.world o =
        ⟨[], [.line (complaintText o.raw m ++ "\n")], false⟩)
      (hout : r₁.out = r.out) (herr : r₁.err = r.err) (hgoing : r₁.crash = none) :
      Says s r o (r₁.report (complaint r.world.screen o.raw m) add)
  | notice {r₁ : Removals} {bypassed : Bool} (hm : s.message? r.world o = none)
      (hlines : s.lines r.world o = ⟨[.line (s.noticeText o.raw bypassed ++ "\n")], [], false⟩)
      (hout : r₁.out = r.out) (herr : r₁.err = r.err) (hgoing : r₁.crash = none) :
      Says s r o (r₁.print (s.notice r.world.screen o.raw bypassed))

theorem act_says (s : Remover) (o : Outcome) (hgoing : r.crash = none) :
    s.Says r o (s.act r o) := by
  obtain ⟨raw, finding⟩ := o
  match finding with
  | .judged _ .skipped => exact .nothing rfl rfl rfl rfl (by rw [act, hgoing]; rfl)
  | .judged _ (.error e) =>
    rw [act]
    exact .complaint rfl rfl rfl rfl hgoing
  | .unverifiable b | .judged _ (.verdict (.block b)) =>
    rw [act]
    exact .complaint rfl rfl rfl rfl hgoing
  | .judged t (.verdict (.allow bypassed)) =>
    cases hremove : s.remove r.world t with
    | mk w failure =>
      cases failure with
      | none =>
        simp only [act, hremove]
        refine .notice ?_ ?_ rfl rfl hgoing
        · simp [message?, hremove]
        · simp [lines, message?, hremove]
      | some f =>
        simp only [act, hremove]
        split
        · rename_i hsystem
          refine .complaint ?_ ?_ rfl rfl hgoing
          · simp [message?, hremove, hsystem]
          · simp [lines, message?, hremove, hsystem]
        · rename_i hsystem
          refine .nothing ?_ ?_ rfl rfl ?_
          · simp [message?, hremove, hsystem]
          · simp [lines, hremove]
          · simp [lines, hremove, hsystem, Removals.fail]

theorem adds_report {r₁ : Removals} {item : Item} {add : Tally → Tally}
    {printed : Except Failure Item} (hout : r₁.out = r.out) (herr : r₁.err = r.err)
    (hgoing : r₁.crash = none) :
    Adds r (r₁.report printed add) ⟨[], [item], false⟩ ↔ printed = .ok item := by
  cases printed with
  | error f => exact iff_of_false (fun h => absurd h.ended nofun) nofun
  | ok item' =>
    refine ⟨fun h => ?_, fun h => ⟨?_, ?_, ?_⟩⟩
    · have herr' : r₁.err ++ [item'] = r.err ++ [item] := h.err
      rw [herr] at herr'
      exact congrArg Except.ok (List.singleton_inj.mp (List.append_cancel_left herr'))
    · rw [List.append_nil]
      exact hout
    · obtain rfl := Except.ok.inj h
      exact congrArg (· ++ [item']) herr
    · exact congrArg Option.isSome hgoing

theorem adds_print {r₁ : Removals} {item : Item} (hout : r₁.out = r.out) (herr : r₁.err = r.err)
    (hgoing : r₁.crash = none) : Adds r (r₁.print (.ok item)) ⟨[item], [], false⟩ where
  out := congrArg (· ++ [item]) hout
  err := by
    rw [List.append_nil]
    exact herr
  ended := congrArg Option.isSome hgoing

/-- A step reports what it should just if it does not complain in words that make up a tag, or hold
the code of an emoji. -/
theorem reports_iff (hgoing : r.crash = none) (hraw : Legible r.world.screen.emoji o.raw)
    (hmessage : ∀ m, s.message? r.world o = some m → Literal m) :
    s.Reports r o ↔ ∀ m, s.message? r.world o = some m →
      ¬(Unclosed o.raw.toList ∧ Closing m.toList) ∧
        r.world.screen.emoji.Leaves (complaintMarkup o.raw m) := by
  have hsays := act_says s o hgoing
  unfold Reports
  generalize s.act r o = r' at *
  cases hsays with
  | nothing hm hnone hout herr hended =>
    have hlines : (s.lines r.world o).err = [] := by simp [lines, hm]
    refine iff_of_true ⟨?_, ?_, hended⟩ fun m h => absurd (hm.symm.trans h) nofun
    · rw [hnone, List.append_nil, hout]
    · rw [hlines, List.append_nil, herr]
  | complaint hm hlines hout herr hgoing =>
    rw [hlines, adds_report hout herr hgoing,
      complaint_eq_ok_iff _ hraw.literal (hmessage _ hm), hm]
    simp only [Option.some.injEq, forall_eq']
  | notice hm hlines hout herr hgoing =>
    rw [hlines, notice_eq s _ hraw.literal hraw.codeless]
    exact iff_of_true (adds_print hout herr hgoing) fun m h => absurd (hm.symm.trans h) nofun

theorem actAll_adds (hgoing : r.crash = none)
    (h : ∀ front r' o back, s.Reaches r outcomes front r' o back → s.Reports r' o) :
    Adds r (s.actAll r outcomes) (s.script r.world outcomes) := by
  induction outcomes generalizing r with
  | nil => exact ⟨(List.append_nil _).symm, (List.append_nil _).symm, congrArg Option.isSome hgoing⟩
  | cons o rest ih =>
    have hfirst : s.Reports r o := h [] r o rest ⟨rfl, rfl, hgoing⟩
    rw [actAll, script, hfirst.ended]
    split
    · exact hfirst
    · rename_i hended
      have hnext : (s.act r o).crash = none := by
        rw [← Option.not_isSome_iff_eq_none, hfirst.ended]
        exact hended
      obtain ⟨hout, herr, hlast⟩ := ih hnext fun front r' o' back hreaches => by
        obtain ⟨hsplit, hstate, hcrash⟩ := hreaches
        exact h (o :: front) r' o' back
          ⟨by rw [hsplit, List.cons_append], by rw [actAll_cons hnext, hstate], hcrash⟩
      rw [act_world] at hout herr hlast
      refine ⟨?_, ?_, hlast⟩
      · rw [hout, hfirst.out, List.append_assoc]
        rfl
      · rw [herr, hfirst.err, List.append_assoc]
        rfl

end Remover

namespace Evaluator

theorem usage_of_answer {t : Target} {bypass : Option Verdict} {e : OperationError}
    (h : ev.answer w flags t bypass = .ok (.error e)) : ∃ kind, e = .usage kind t.raw := by
  have hok {a : Answer} (h : Except.ok a = (.ok (.error e) : Except Failure Answer)) :
      a = .error e := Except.ok.inj h
  unfold answer at h
  split at h
  · exact ⟨_, (Answer.error.inj (hok h)).symm⟩
  · split at h
    · split at h
      · exact absurd (hok h) nofun
      · exact ⟨_, (Answer.error.inj (hok h)).symm⟩
    · split at h
      · exact ⟨_, (Answer.error.inj (hok h)).symm⟩
      · split at h
        · exact absurd (hok h) nofun
        · split at h
          · obtain ⟨v, -, h⟩ := World.map_eq_ok.mp h
            exact absurd h nofun
          · exact absurd (hok h) nofun

theorem usage_of_evaluate {t : Target} {e : OperationError}
    (h : ev.evaluate w flags raw = .ok o) (ho : o.finding = .judged t (.error e)) :
    ∃ kind, e = .usage kind raw := by
  unfold evaluate at h
  cases hresolve : w.resolve ev.base raw with
  | error x =>
    rw [hresolve] at h
    cases x with
    | failure f => exact absurd h nofun
    | unverifiable u =>
      rw [← Except.ok.inj h] at ho
      exact absurd ho nofun
  | ok t' =>
    simp only [hresolve] at h
    split at h
    · rw [← Except.ok.inj h] at ho
      exact absurd (Finding.judged.inj ho).2 nofun
    · obtain ⟨a, ha, rfl⟩ := World.map_eq_ok.mp h
      obtain ⟨rfl, rfl⟩ := Finding.judged.inj ho
      obtain ⟨kind, rfl⟩ := usage_of_answer ha
      exact ⟨kind, by rw [World.raw_of_resolve hresolve]⟩

end Evaluator

/-- The first bracket of a text closes a tag and the last one opens one. -/
def Tangled (raw : String) : Prop :=
  Unclosed raw.toList ∧ Closing raw.toList

namespace Remover

/-- All that a line about an outcome may be made of is legible. -/
structure Spelt (s : Remover) (w : World) (o : Outcome) : Prop where
  raw : Legible w.screen.emoji o.raw
  root : Legible w.screen.emoji s.projectRoot.text
  path : ∀ b p, o.verdict? = some (.block b) → b.path = some p → Legible w.screen.emoji p.text
  trash : ∀ target bypassed text, Allows o target bypassed →
    (s.remove w target).2 = some (.trash text) → Legible w.screen.emoji text

/-- An outcome that is complained about, and for another reason than a refusal. -/
def Repeats (s : Remover) (w : World) (o : Outcome) : Prop :=
  o.blocked = false ∧ s.message? w o ≠ none

/-- An outcome that is complained about in words that hold the code of an emoji. -/
def Coded (s : Remover) (w : World) (o : Outcome) : Prop :=
  ∃ m, s.message? w o = some m ∧ ¬w.screen.emoji.Leaves (complaintMarkup o.raw m)

theorem legible_cause {emoji : Emoji} (e : OperationError) (h : Legible emoji e.detail) :
    Legible emoji e.cause := by
  unfold OperationError.cause
  split
  · exact legible_of_count (by decide) (by decide)
  · exact legible_of_count (by decide) (by decide)
  · exact legible_of_count (by decide) (by decide)
  · split
    · exact legible_of_count (by decide) (by decide)
    · exact h

theorem legible_reason {emoji : Emoji} {f : Failure} (hsystem : f.isSystem = true)
    (htrash : ∀ text, f = .trash text → Legible emoji text) : Legible emoji f.reason := by
  cases f with
  | call e path =>
    have htext : Legible emoji e.text := by
      cases e <;> exact legible_of_count (by decide) (by decide)
    exact htext
  | trash text => exact htrash text rfl
  | noWorkingDirectory | linkedTree => exact legible_of_count (by decide) (by decide)
  | _ => exact absurd hsystem nofun

theorem message?_cases {w' : World} (h : ev.evaluate w' flags raw = .ok o) (hspelt : s.Spelt w o)
    (hm : s.message? w o = some m) :
    (∃ b, o.verdict? = some (.block b) ∧ m = b.explain s.projectRoot) ∨
      ∃ e : OperationError, o.blocked = false ∧ e.path = Path.ofString o.raw ∧
        Legible w.screen.emoji e.detail ∧ m = e.message := by
  have hsame := (Evaluator.answered_of_evaluate h).same
  have hempty : Legible w.screen.emoji "" := legible_of_count (by decide) (by decide)
  obtain ⟨raw', finding⟩ := o
  match finding with
  | .judged _ .skipped => exact absurd hm nofun
  | .judged _ (.error e) =>
    obtain ⟨kind, rfl⟩ := Evaluator.usage_of_evaluate h rfl
    exact .inr ⟨_, rfl, by rw [← hsame]; rfl, hempty, (Option.some.inj hm).symm⟩
  | .unverifiable b | .judged _ (.verdict (.block b)) =>
    exact .inl ⟨b, rfl, (Option.some.inj hm).symm⟩
  | .judged t (.verdict (.allow bypassed)) =>
    cases hremove : (s.remove w t).2 with
    | none =>
      simp only [message?, hremove] at hm
      exact absurd hm nofun
    | some f =>
      simp only [message?, hremove] at hm
      split at hm
      · rename_i hsystem
        have hreason := legible_reason hsystem fun text htext =>
          hspelt.trash t bypassed text rfl (htext ▸ hremove)
        exact .inr ⟨_, rfl, rfl, hreason, (Option.some.inj hm).symm⟩
      · exact absurd hm nofun

theorem literal_of_message? {w' : World} (h : ev.evaluate w' flags raw = .ok o)
    (hspelt : s.Spelt w o) (hm : s.message? w o = some m) : Literal m := by
  obtain ⟨b, hb, rfl⟩ | ⟨e, -, he, hdetail, rfl⟩ := message?_cases h hspelt hm
  · exact Block.literal_explain hspelt.root.literal fun p hp => (hspelt.path b p hb hp).literal
  · exact OperationError.literal_message (he ▸ literal_ofString hspelt.raw.literal)
      (legible_cause e hdetail).literal

theorem codeless_of_message? {w' : World} (h : ev.evaluate w' flags raw = .ok o)
    (hspelt : s.Spelt w o) (hraw : ':' ∉ o.raw.toList) (hm : s.message? w o = some m) :
    w.screen.emoji.Codeless m.toList := by
  obtain ⟨b, hb, rfl⟩ | ⟨e, -, he, hdetail, rfl⟩ := message?_cases h hspelt hm
  · exact Block.codeless_explain hspelt.root.codeless fun p hp => (hspelt.path b p hb hp).codeless
  · refine OperationError.codeless_message (fun hmem => ?_) (legible_cause e hdetail).codeless
    obtain hmem | hmem | hmem := Path.mem_text_ofString (he ▸ hmem)
    · exact hraw hmem
    · exact absurd hmem (by decide)
    · exact absurd hmem (by decide)

theorem not_tangled_iff {w' : World} (h : ev.evaluate w' flags raw = .ok o)
    (hspelt : s.Spelt w o) : (∀ m, s.message? w o = some m →
      ¬(Unclosed o.raw.toList ∧ Closing m.toList)) ↔ ¬(Tangled o.raw ∧ s.Repeats w o) := by
  have hclosing {e : OperationError} (he : e.path = Path.ofString o.raw)
      (hopen : Unclosed o.raw.toList) : Closing e.message.toList ↔ Closing o.raw.toList := by
    have hsame : brackets e.path.text.toList = brackets o.raw.toList := by
      rw [he, brackets_ofString]
    have hne : brackets o.raw.toList ≠ [] := by
      obtain ⟨front, c, rest, hsplit, -⟩ := hopen
      rw [hsplit, brackets_append]
      exact fun hnil => absurd (List.append_eq_nil_iff.mp hnil).2 nofun
    rw [OperationError.closing_message (hsame ▸ hne), Closing, Closing, hsame]
  constructor
  · rintro hnone ⟨⟨hopen, hclose⟩, hblocked, hm⟩
    obtain ⟨m, hm⟩ := Option.ne_none_iff_exists'.mp hm
    obtain ⟨b, hb, rfl⟩ | ⟨e, -, he, -, rfl⟩ := message?_cases h hspelt hm
    · rw [Outcome.blocked, hb] at hblocked
      cases hblocked
    · exact hnone _ hm ⟨hopen, (hclosing he hopen).mpr hclose⟩
  · rintro htangled m hm ⟨hopen, hclose⟩
    obtain ⟨b, -, rfl⟩ | ⟨e, hblocked, he, -, rfl⟩ := message?_cases h hspelt hm
    · exact b.not_closing_explain s.projectRoot hclose
    · exact htangled ⟨⟨hopen, (hclosing he hopen).mp hclose⟩, hblocked, hm ▸ Option.some_ne_none _⟩

theorem reports_iff_not_tangled {w' : World} (h : ev.evaluate w' flags raw = .ok o)
    (hgoing : r.crash = none) (hspelt : s.Spelt r.world o) :
    (s.Reports r o ↔ ¬(Tangled o.raw ∧ s.Repeats r.world o) ∧ ¬s.Coded r.world o) ∧
      (':' ∉ o.raw.toList → (s.Reports r o ↔ ¬(Tangled o.raw ∧ s.Repeats r.world o))) := by
  have hmessage : ∀ m, s.message? r.world o = some m → Literal m := fun m hm =>
    literal_of_message? h hspelt hm
  have hcoded : (∀ m, s.message? r.world o = some m →
      r.world.screen.emoji.Leaves (complaintMarkup o.raw m)) ↔ ¬s.Coded r.world o := by
    simp only [Coded, not_exists, not_and, not_not]
  rw [reports_iff hgoing hspelt.raw hmessage]
  simp only [imp_and, forall_and]
  rw [not_tangled_iff h hspelt, hcoded]
  refine ⟨Iff.rfl, fun hcolon => and_iff_left_of_imp fun htangled => ?_⟩
  rw [← not_tangled_iff h hspelt] at htangled
  exact hcoded.mp fun m hm => leaves_of_codeless
    (renderParts_of_untangled hspelt.raw.literal (hmessage m hm) (htangled m hm))
    (codeless_complaintText hcolon (codeless_of_message? h hspelt hcolon hm))

theorem summary_eq_ok (s : Remover) (screen : Screen) (t : Tally) :
    ∃ item, s.summary screen t = .ok item := by
  have hdone : Unmarked (if s.dryRun then "would be removed" else "removed") := by
    cases s.dryRun <;> decide
  have hstart : Unmarked "safe-rm: " := by decide
  have hfiles : Unmarked " file(s) " := by decide
  have hcomma : Unmarked ", " := by decide
  have hfailed : Unmarked " failed" := by decide
  have htext : Unmarked ("safe-rm: " ++ Nat.repr t.removed ++ " file(s) " ++
      (if s.dryRun then "would be removed" else "removed") ++ ", " ++ Nat.repr t.unsuccessful ++
        " failed") :=
    .append (.append (.append (.append (.append (.append hstart (unmarked_repr _)) hfiles) hdone)
      hcomma) (unmarked_repr _)) hfailed
  obtain ⟨shown, hshown⟩ := exists_render screen.emoji (shows_plain htext.plain).renderParts
  exact ⟨_, by rw [summary, Console.line, hshown]; rfl⟩

theorem execute_closes (s : Remover) (w : World) (outcomes : List Outcome) :
    (s.execute w outcomes).out = (s.actAll (.start w) outcomes).out ∧
      (s.execute w outcomes).crash = (s.actAll (.start w) outcomes).crash ∧
      ∃ closing, closing.length ≤ 1 ∧
        (s.execute w outcomes).err = (s.actAll (.start w) outcomes).err ++ closing := by
  unfold execute
  dsimp only
  split
  · obtain ⟨item, hitem⟩ := s.summary_eq_ok w.screen (s.actAll (.start w) outcomes).tally
    rw [hitem]
    exact ⟨rfl, rfl, [item], Nat.le_refl 1, rfl⟩
  · exact ⟨rfl, rfl, [], Nat.zero_le 1, (List.append_nil _).symm⟩

/-- A run prints all that it should and nothing else but a closing line. -/
structure Tells (s : Remover) (w : World) (outcomes : List Outcome) : Prop where
  out : (s.execute w outcomes).out = (s.script w outcomes).out
  err : ∃ closing, closing.length ≤ 1 ∧
    (s.execute w outcomes).err = (s.script w outcomes).err ++ closing
  ended : (s.execute w outcomes).crash.isSome = (s.script w outcomes).ended

theorem tells_of_reports (h : ∀ front r o back, s.Reaches (.start w) outcomes front r o back →
    s.Reports r o) : s.Tells w outcomes := by
  obtain ⟨hout, herr, hended⟩ := actAll_adds (r := .start w) rfl h
  obtain ⟨hout', hcrash, closing, hlength, herr'⟩ := execute_closes s w outcomes
  refine ⟨?_, ⟨closing, hlength, ?_⟩, ?_⟩
  · rw [hout', hout]
    rfl
  · rw [herr', herr]
    rfl
  · rw [hcrash, hended]
    rfl

end Remover

/-- Each outcome is reported as it should be when its turn comes, but for tangled arguments that are
repeated and for codes that the colon behind an argument ends; and a run without such an argument
tells everything. -/
theorem Evaluator.reports_iff_of_process (hprocess : ev.process w flags raws = .ok outcomes)
    (s : Remover) (w' : World) :
    (∀ front r o back, s.Reaches (.start w') outcomes front r o back → s.Spelt r.world o →
      (s.Reports r o ↔ ¬(Tangled o.raw ∧ s.Repeats r.world o) ∧ ¬s.Coded r.world o) ∧
      (':' ∉ o.raw.toList → (s.Reports r o ↔ ¬(Tangled o.raw ∧ s.Repeats r.world o)))) ∧
    ((∀ front r o back, s.Reaches (.start w') outcomes front r o back →
      s.Spelt r.world o ∧ ¬(Tangled o.raw ∧ s.Repeats r.world o) ∧ ¬s.Coded r.world o) →
        s.Tells w' outcomes) := by
  have hreports {front back : List Outcome} {r : Removals} {o : Outcome}
      (hreaches : s.Reaches (.start w') outcomes front r o back) (hspelt : s.Spelt r.world o) :
      (s.Reports r o ↔ ¬(Tangled o.raw ∧ s.Repeats r.world o) ∧ ¬s.Coded r.world o) ∧
        (':' ∉ o.raw.toList → (s.Reports r o ↔ ¬(Tangled o.raw ∧ s.Repeats r.world o))) := by
    obtain ⟨raw, -, hraw⟩ := exists_raw_of_process hprocess hreaches.mem
    exact Remover.reports_iff_not_tangled hraw hreaches.going hspelt
  refine ⟨fun front r o back => hreports, fun h => Remover.tells_of_reports ?_⟩
  intro front r o back hreaches
  obtain ⟨hspelt, hfaithful⟩ := h front r o back hreaches
  exact (hreports hreaches hspelt).1.mpr hfaithful

def missingOutcome (raw : String) : Outcome :=
  ⟨raw, .judged ⟨raw, ⟨.single, ["p", raw]⟩, ⟨.single, ["p", raw]⟩, .missing, none, false⟩
    (.error (.usage .pathMissing raw))⟩

theorem spelt_missingOutcome {raw : String} (hraw : Legible w.screen.emoji raw) :
    (Remover.mk ⟨.single, ["p"]⟩ false false).Spelt w (missingOutcome raw) where
  raw := hraw
  root := legible_of_count (by decide +kernel) (by decide +kernel)
  path _ _ h := absurd h nofun
  trash _ _ _ h := absurd h nofun

/-- A tag in a name is shown like any other text. -/
theorem Evaluator.reports_iff_of_process_tag :
    (free ⟨.single, ["p"]⟩).process plainWorld ⟨false, false⟩ ["[red]x"] =
        .ok [missingOutcome "[red]x"] ∧
      (Remover.mk ⟨.single, ["p"]⟩ false false).Reports (.start plainWorld)
        (missingOutcome "[red]x") := by
  have hprocess : (free ⟨.single, ["p"]⟩).process plainWorld ⟨false, false⟩ ["[red]x"] =
      .ok [missingOutcome "[red]x"] := World.toOption_eq_some.mp (by decide +kernel)
  have hreports := (reports_iff_of_process hprocess ⟨⟨.single, ["p"]⟩, false, false⟩ plainWorld).1
    [] (.start plainWorld) (missingOutcome "[red]x") [] ⟨rfl, rfl, rfl⟩
    (spelt_missingOutcome (legible_of_count (by decide +kernel) (by decide +kernel)))
  refine ⟨hprocess, (hreports.2 (by decide +kernel)).mpr fun h => absurd h.1.2 ?_⟩
  unfold Closing
  decide +kernel

/-- The complaint about a missing `][a` shows neither the argument nor what was to be done. -/
theorem Evaluator.not_reports_tangled :
    (free ⟨.single, ["p"]⟩).process plainWorld ⟨false, false⟩ ["][a"] =
        .ok [missingOutcome "][a"] ∧
      (Remover.mk ⟨.single, ["p"]⟩ false false).Spelt plainWorld (missingOutcome "][a") ∧
      ¬(Remover.mk ⟨.single, ["p"]⟩ false false).Reports (.start plainWorld)
        (missingOutcome "][a") := by
  refine ⟨World.toOption_eq_some.mp (by decide +kernel),
    spelt_missingOutcome (legible_of_count (by decide +kernel) (by decide +kernel)), fun h => ?_⟩
  have hshown : ((Remover.mk ⟨.single, ["p"]⟩ false false).act (.start plainWorld)
      (missingOutcome "][a")).err = [.line "safe-rm: ][a': No such file or directory\n"] := by
    decide +kernel
  exact absurd (hshown.symm.trans h.err) (by decide +kernel)

def emojiWorld : World where
  __ := plainWorld
  screen :=
    { Screen.plain with
      emoji.find? := fun name => if name = ['b'] then some ['🅱'] else none
      emoji.bare := fun name shown h => by
        split at h
        · obtain rfl := Option.some.inj h
          decide
        · cases h }

/-- The colon behind a missing `a:b` ends a code, although the argument holds none. -/
theorem Evaluator.not_reports_coded :
    (free ⟨.single, ["p"]⟩).process emojiWorld ⟨false, false⟩ ["a:b"] =
        .ok [missingOutcome "a:b"] ∧
      (Remover.mk ⟨.single, ["p"]⟩ false false).Spelt emojiWorld (missingOutcome "a:b") ∧
      ¬(Remover.mk ⟨.single, ["p"]⟩ false false).Reports (.start emojiWorld)
        (missingOutcome "a:b") := by
  refine ⟨World.toOption_eq_some.mp (by decide +kernel),
    spelt_missingOutcome (legible_of_count (by decide +kernel) (by decide +kernel)), fun h => ?_⟩
  have hshown : ((Remover.mk ⟨.single, ["p"]⟩ false false).act (.start emojiWorld)
      (missingOutcome "a:b")).err =
        [.line "safe-rm: a🅱 cannot remove 'a:b': No such file or directory\n"] := by
    decide +kernel
  exact absurd (hshown.symm.trans h.err) (by decide +kernel)

end DeletionGuard
