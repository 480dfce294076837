import DeletionGuard.Markup

/-!
The runs of a marked-up text. Emoji are put into each run on its own, so a text is shown without
them just if none of its runs holds the code of one; up to the first colon it always is.
-/
namespace DeletionGuard
open Markup
variable {e : Emoji} {s : String} {cs front more name : List Char} {c : Char} {n position : Nat}
  {opened : List (List Char)} {parts : List Part} {f : Failure}
  {r : List Char × List (List Char)}

namespace Markup

theorem codeName_eq_some (h : codeName cs = some name) :
    (∀ c ∈ name, c ≠ ':' ∧ Text.isBlank c = false) ∧ ∃ rest, cs = name ++ ':' :: rest := by
  induction cs generalizing name with
  | nil => cases h
  | cons c cs ih =>
    rw [codeName] at h
    split at h
    · rename_i hcolon
      obtain rfl := Option.some.inj h
      exact ⟨List.forall_mem_nil _, cs, by rw [hcolon]; rfl⟩
    · rename_i hcolon
      split at h
      · cases h
      · rename_i hblank
        obtain ⟨rest, hrest, rfl⟩ := Option.map_eq_some_iff.mp h
        obtain ⟨hname, tail, rfl⟩ := ih hrest
        exact ⟨List.forall_mem_cons.mpr ⟨⟨hcolon, Bool.eq_false_iff.mpr hblank⟩, hname⟩, tail, rfl⟩

end Markup

namespace Emoji

theorem replaceFrom_skip (e : Emoji) (skipped cs : List Char) :
    e.replaceFrom skipped.length (skipped ++ cs) = e.replace cs := by
  induction skipped with
  | nil => rfl
  | cons c skipped ih => rw [List.cons_append, List.length_cons, replaceFrom, ih]

theorem replace_cons (h : (if c = ':' then codeName cs else .none) = .none) :
    e.replace (c :: cs) = c :: e.replace cs := by
  rw [replace, replaceFrom, h]
  rfl

theorem replace_code (h : codeName cs = some name) (hcs : cs = name ++ ':' :: more) :
    e.replace (':' :: cs) =
      (e.find? name).getD (':' :: (name ++ [':'])) ++ e.replace more := by
  have hskip : e.replaceFrom (name.length + 1) cs = e.replace more := by
    have hall := e.replaceFrom_skip (name ++ [':']) more
    rw [List.length_append, List.length_singleton, List.append_assoc, List.singleton_append,
      ← hcs] at hall
    exact hall
  rw [replace, replaceFrom, if_pos rfl, h]
  simp only [hskip]

theorem replace_append (h : ':' ∉ front) (cs : List Char) :
    e.replace (front ++ cs) = front ++ e.replace cs := by
  induction front with
  | nil => rfl
  | cons c front ih =>
    rw [List.mem_cons, not_or] at h
    rw [List.cons_append, replace_cons (if_neg (Ne.symm h.1)), ih h.2, List.cons_append]

/-- A text that holds the code of no emoji. -/
def Codeless (e : Emoji) (cs : List Char) : Prop :=
  ∀ front name back, cs = front ++ ':' :: (name ++ ':' :: back) →
    (∀ c ∈ name, c ≠ ':' ∧ Text.isBlank c = false) → e.find? name = .none

theorem Codeless.of_isInfix (h : e.Codeless cs) {run : List Char} (hrun : run <:+: cs) :
    e.Codeless run := by
  obtain ⟨start, more, rfl⟩ := hrun
  exact fun front name back hcs => h (start ++ front) name (back ++ more) (by simp [hcs])

/-- An emoji takes two colons from a text. -/
theorem replace_cases (e : Emoji) (cs : List Char) : e.replace cs = cs ∨
    ¬e.Codeless cs ∧ (e.replace cs).count ':' < cs.count ':' := by
  induction hn : cs.length using Nat.strongRecOn generalizing cs with
  | _ n ih =>
    have hbehind (start : List Char) {rest : List Char} (hcs : cs = start ++ rest)
        (hne : start ≠ []) (hreplace : e.replace cs = start ++ e.replace rest) : e.replace cs = cs ∨
          ¬e.Codeless cs ∧ (e.replace cs).count ':' < cs.count ':' := by
      have hlength : rest.length < n := by
        have hpos := List.length_pos_iff.mpr hne
        rw [← hn, hcs, List.length_append]
        omega
      rw [hreplace, hcs, List.append_cancel_left_eq, List.count_append, List.count_append]
      exact (ih _ hlength rest rfl).imp_right fun ⟨hcode, hcount⟩ =>
        ⟨fun h => hcode (h.of_isInfix (List.suffix_append start rest).isInfix), by omega⟩
    cases cs with
    | nil => exact .inl rfl
    | cons c cs =>
      cases hcode : if c = ':' then codeName cs else .none with
      | none => exact hbehind [c] rfl (by simp) (replace_cons hcode)
      | some name =>
        obtain ⟨rfl, hcode⟩ := Option.ite_none_right_eq_some.mp hcode
        obtain ⟨hname, rest, hrest⟩ := codeName_eq_some hcode
        have hreplace := replace_code (e := e) hcode hrest
        cases hfind : e.find? name with
        | none =>
          rw [hfind, Option.getD_none] at hreplace
          exact hbehind (':' :: (name ++ [':'])) (by simp [hrest]) (by simp) hreplace
        | some shown =>
          refine .inr ⟨fun h => ?_, ?_⟩
          · have hnone := h [] name rest (by rw [hrest]; rfl) hname
            cases hfind.symm.trans hnone
          · have hlength : rest.length < n := by
              rw [← hn, hrest, List.length_cons, List.length_append, List.length_cons]
              omega
            have hle : (e.replace rest).count ':' ≤ rest.count ':' := by
              obtain hsame | ⟨-, hcount⟩ := ih _ hlength rest rfl
              · exact hsame.symm ▸ Nat.le_refl _
              · exact Nat.le_of_lt hcount
            rw [hreplace, hfind, Option.getD_some, hrest, List.count_append,
              List.count_eq_zero.mpr (e.bare name shown hfind).1, List.count_cons_self,
              List.count_append, List.count_cons_self]
            omega

theorem replace_of_codeless (h : e.Codeless cs) : e.replace cs = cs :=
  (e.replace_cases cs).resolve_right fun hcode => hcode.1 h

theorem codeless_of_count (e : Emoji) (h : cs.count ':' ≤ 1) : e.Codeless cs := by
  rintro front name back rfl
  rw [List.count_append, List.count_cons_self, List.count_append, List.count_cons_self] at h
  omega

theorem codeless_of_not_mem (e : Emoji) (h : ':' ∉ cs) : e.Codeless cs :=
  e.codeless_of_count (List.count_eq_zero.mpr h ▸ Nat.zero_le 1)

theorem Codeless.append (h : e.Codeless front) (hc : Text.isBlank c = true)
    (h' : e.Codeless more) : e.Codeless (front ++ c :: more) := by
  have hcolon : c ≠ ':' := by
    rintro rfl
    exact absurd hc (by decide)
  have hstart {rest back : List Char} (hcons : c :: more = rest ++ ':' :: back) :
      ∃ rest', rest = c :: rest' ∧ more = rest' ++ ':' :: back := by
    cases rest with
    | nil => exact absurd (List.cons.inj hcons).1 hcolon
    | cons d rest => exact ⟨rest, by rw [(List.cons.inj hcons).1], (List.cons.inj hcons).2⟩
  intro start name back hsplit hname
  obtain ⟨rest, rfl, hrest⟩ | ⟨rest, rfl, hrest⟩ := List.append_eq_append_iff.mp hsplit
  · obtain ⟨rest', -, hmore⟩ := hstart hrest
    exact h' rest' name back hmore hname
  · cases rest with
    | nil => exact absurd (List.cons.inj hrest).1.symm hcolon
    | cons d rest =>
      obtain ⟨rfl, hbehind⟩ := List.cons.inj hrest
      obtain ⟨rest', rfl, hback⟩ | ⟨rest', rfl, hmore⟩ := List.append_eq_append_iff.mp hbehind
      · cases rest' with
        | nil => exact absurd (List.cons.inj hback).1.symm hcolon
        | cons d rest' =>
          obtain ⟨rfl, -⟩ := List.cons.inj hback
          exact h start name rest' rfl hname
      · obtain ⟨rest'', rfl, -⟩ := hstart hmore
        exact absurd hc (by simp [(hname c (by simp)).2])

theorem mem_replaceFrom (h : c ∈ e.replaceFrom n cs) :
    c ∈ cs ∨ ∃ name shown, e.find? name = some shown ∧ c ∈ shown := by
  fun_induction replaceFrom e n cs with
  | case1 => exact .inl h
  | case2 n d cs ih => exact (ih h).imp_left (List.mem_cons_of_mem d)
  | case3 d cs name hcode ih =>
    obtain hmem | hmem := List.mem_append.mp h
    · cases hfind : e.find? name with
      | some shown =>
        rw [hfind, Option.getD_some] at hmem
        exact .inr ⟨name, shown, hfind, hmem⟩
      | none =>
        rw [hfind, Option.getD_none] at hmem
        obtain ⟨rfl, hcode⟩ := Option.ite_none_right_eq_some.mp hcode
        obtain ⟨-, rest, rfl⟩ := codeName_eq_some hcode
        obtain rfl | hmem := List.mem_cons.mp hmem
        · exact .inl List.mem_cons_self
        · refine .inl (List.mem_cons_of_mem ':' ?_)
          rw [List.append_cons]
          exact List.mem_append_left rest hmem
    · exact (ih hmem).imp_left (List.mem_cons_of_mem d)
  | case4 d cs hcode ih =>
    obtain rfl | h := List.mem_cons.mp h
    · exact .inl List.mem_cons_self
    · exact (ih h).imp_left (List.mem_cons_of_mem d)

/-- None of the runs of a marked-up text holds the code of an emoji. -/
def Leaves (e : Emoji) (markup : String) : Prop :=
  ∀ r, runs [] (partsFrom 0 0 markup.toList) = .ok r → ∀ run ∈ r.1 :: r.2, e.replace run = run

theorem flatMap_replace_cases (e : Emoji) (pieces : List (List Char)) :
    (∀ run ∈ pieces, e.replace run = run) ∨
      (pieces.flatMap e.replace).count ':' < pieces.flatten.count ':' := by
  induction pieces with
  | nil => exact .inl (List.forall_mem_nil _)
  | cons run rest ih =>
    have hle : (rest.flatMap e.replace).count ':' ≤ rest.flatten.count ':' := by
      obtain hsame | hcount := ih
      · have hflat : rest.flatMap e.replace = rest.flatten := by
          rw [List.flatMap, List.map_congr_left hsame, List.map_id']
        exact Nat.le_of_eq (congrArg _ hflat)
      · exact Nat.le_of_lt hcount
    rw [List.flatten_cons, List.flatMap_cons, List.count_append, List.count_append]
    obtain hsame | ⟨-, hcount⟩ := e.replace_cases run
    · rw [hsame, List.forall_mem_cons]
      exact ih.imp (fun hrest => ⟨hsame, hrest⟩) fun hcount => by omega
    · exact .inr (by omega)

theorem flatMap_replace_append {pieces : List (List Char)} (hcolon : ':' ∉ front)
    (h : pieces.flatten = front ++ more) : ∃ tail, pieces.flatMap e.replace = front ++ tail := by
  induction pieces generalizing front with
  | nil =>
    obtain ⟨rfl, -⟩ := List.append_eq_nil_iff.mp h.symm
    exact ⟨_, rfl⟩
  | cons run rest ih =>
    rw [List.flatten_cons] at h
    rw [List.flatMap_cons]
    obtain ⟨rest', rfl, hrest⟩ | ⟨back, rfl, -⟩ := List.append_eq_append_iff.mp h
    · rw [List.mem_append, not_or] at hcolon
      obtain ⟨tail, htail⟩ := ih hcolon.2 hrest
      exact ⟨tail, by rw [replace_of_codeless (e.codeless_of_not_mem hcolon.1), htail,
        List.append_assoc]⟩
    · exact ⟨_, by rw [replace_append hcolon, List.append_assoc]⟩

end Emoji

namespace Markup

/-- The visible characters of parts, without regard to where one run ends. -/
def renderParts : List (List Char) → List Part → Except Failure (List Char)
  | _, [] => .ok []
  | opened, .plain '\\' :: .plain '[' :: rest => (renderParts opened rest).map ('[' :: ·)
  | opened, .plain c :: rest => (renderParts opened rest).map (c :: ·)
  | opened, .shown cs :: rest => (renderParts opened rest).map (cs ++ ·)
  | opened, .tag inside position :: rest =>
    match stack opened inside position with
    | .error f => .error f
    | .ok opened => renderParts opened rest

theorem map_append_map {ε : Type} (x : Except ε (List Char)) (s cs : List Char) :
    (x.map (cs ++ ·)).map (s ++ ·) = x.map (s ++ cs ++ ·) := by
  cases x with
  | error f => rfl
  | ok out => exact congrArg Except.ok (List.append_assoc s cs out).symm

theorem runs_flatten (opened : List (List Char)) (parts : List Part) :
    (runs opened parts).map (fun r => (r.1 :: r.2).flatten) = renderParts opened parts := by
  induction opened, parts using runs.induct with
  | case1 => rfl
  | case2 opened rest ih => rw [runs, renderParts, ← ih]; cases runs opened rest <;> rfl
  | case3 opened c rest hback ih =>
    rw [runs, renderParts, ← ih]
    · cases runs opened rest <;> rfl
    all_goals exact hback
  | case4 opened cs rest ih => rw [runs, renderParts, ← ih]; cases runs opened rest <;> rfl
  | case5 opened inside position rest f hstack => rw [runs, renderParts, hstack]; rfl
  | case6 opened inside position rest opened' hstack ih =>
    rw [runs, renderParts, hstack]
    dsimp only
    rw [← ih]
    cases runs opened' rest <;> rfl

theorem matchAt_of_not_mem (h : '[' ∉ cs) : matchAt cs = none := by
  have hnone : tagInside (cs.dropWhile (· = '\\')) = none := by
    unfold tagInside
    split
    · rename_i c rest hdrop
      exact absurd ((List.dropWhile_sublist _).subset (hdrop ▸ List.mem_cons_self)) h
    · rfl
  rw [matchAt, hnone, Option.map_none]

theorem runs_of_not_mem (h : '[' ∉ cs) (opened : List (List Char)) (position : Nat) :
    runs opened (partsFrom 0 position cs) = .ok (cs, []) := by
  induction cs generalizing position with
  | nil => rfl
  | cons c cs ih =>
    have hrest : '[' ∉ cs := fun hmem => h (List.mem_cons_of_mem c hmem)
    rw [partsFrom, matchAt_of_not_mem h]
    dsimp only
    rw [runs, ih hrest]
    · rfl
    · intro rest hparts
      cases cs with
      | nil => exact fun _ => List.cons_ne_nil _ _ hparts.symm
      | cons d cs =>
        rw [partsFrom, matchAt_of_not_mem hrest] at hparts
        rw [Part.plain.inj (List.cons.inj hparts).1] at hrest
        exact absurd List.mem_cons_self hrest

theorem render_eq (e : Emoji) (s : String) : render e s =
    (runs [] (partsFrom 0 0 s.toList)).map fun r =>
      String.ofList (((r.1 :: r.2).flatMap e.replace).filter (!isDropped ·)) := by
  unfold render
  cases hopen : Text.holds '[' s with
  | true => rfl
  | false =>
    have hnone : '[' ∉ s.toList := by simpa [Text.holds] using hopen
    rw [runs_of_not_mem hnone]
    rfl

theorem exists_runs (h : renderParts [] (partsFrom 0 0 s.toList) = .ok cs) :
    ∃ r, runs [] (partsFrom 0 0 s.toList) = .ok r ∧ (r.1 :: r.2).flatten = cs := by
  rw [← runs_flatten] at h
  cases hruns : runs [] (partsFrom 0 0 s.toList) with
  | error f =>
    rw [hruns] at h
    cases h
  | ok r =>
    rw [hruns] at h
    exact ⟨r, rfl, Except.ok.inj h⟩

theorem render_error_iff :
    render e s = .error f ↔ renderParts [] (partsFrom 0 0 s.toList) = .error f := by
  rw [render_eq, ← runs_flatten]
  cases runs [] (partsFrom 0 0 s.toList) with
  | error f' => exact ⟨fun h => congrArg Except.error (Except.error.inj h),
      fun h => congrArg Except.error (Except.error.inj h)⟩
  | ok r => exact iff_of_false (by rintro ⟨⟩) (by rintro ⟨⟩)

theorem exists_render (e : Emoji) (h : renderParts [] (partsFrom 0 0 s.toList) = .ok cs) :
    ∃ shown, render e s = .ok shown := by
  obtain ⟨r, hr, -⟩ := exists_runs h
  exact ⟨_, by rw [render_eq, hr]; rfl⟩

theorem render_of_leaves (h : renderParts [] (partsFrom 0 0 s.toList) = .ok cs)
    (hleaves : e.Leaves s) : render e s = .ok (String.ofList (cs.filter (!isDropped ·))) := by
  obtain ⟨r, hr, rfl⟩ := exists_runs h
  have hsame : (r.1 :: r.2).flatMap e.replace = (r.1 :: r.2).flatten := by
    rw [List.flatMap, List.map_congr_left (hleaves r hr), List.map_id']
  rw [render_eq, hr, ← hsame]
  rfl

theorem leaves_of_codeless (h : renderParts [] (partsFrom 0 0 s.toList) = .ok cs)
    (hcode : e.Codeless cs) : e.Leaves s := by
  intro r hr run hrun
  obtain ⟨r', hr', rfl⟩ := exists_runs h
  obtain rfl := Except.ok.inj (hr.symm.trans hr')
  exact Emoji.replace_of_codeless (hcode.of_isInfix (List.infix_of_mem_flatten hrun))

theorem render_of_not_leaves (h : renderParts [] (partsFrom 0 0 s.toList) = .ok cs)
    (hleaves : ¬e.Leaves s) : ∃ shown, render e s = .ok shown ∧
      shown.toList.count ':' < cs.count ':' ∧ ('\t' ∉ cs → '\t' ∉ shown.toList) := by
  obtain ⟨r, hr, rfl⟩ := exists_runs h
  have hcount : ((r.1 :: r.2).flatMap e.replace).count ':' < (r.1 :: r.2).flatten.count ':' := by
    refine (e.flatMap_replace_cases (r.1 :: r.2)).resolve_left fun hsame => hleaves ?_
    intro r' hr'
    obtain rfl := Except.ok.inj (hr.symm.trans hr')
    exact hsame
  refine ⟨_, by rw [render_eq, hr]; rfl, ?_, fun hnone hmem => ?_⟩
  · rw [String.toList_ofList, List.count_filter (by decide)]
    exact hcount
  · rw [String.toList_ofList] at hmem
    obtain ⟨run, hrun, hmem⟩ := List.mem_flatMap.mp (List.mem_filter.mp hmem).1
    obtain hmem | ⟨name, shown, hfind, hmem⟩ := Emoji.mem_replaceFrom hmem
    · exact hnone (List.mem_flatten.mpr ⟨run, hrun, hmem⟩)
    · exact (e.bare name shown hfind).2 hmem

theorem render_append (e : Emoji)
    (h : renderParts [] (partsFrom 0 0 s.toList) = .ok (front ++ more)) (hcolon : ':' ∉ front) :
    ∃ tail, render e s = .ok (String.ofList ((front ++ tail).filter (!isDropped ·))) := by
  obtain ⟨r, hr, hflat⟩ := exists_runs h
  obtain ⟨tail, htail⟩ := Emoji.flatMap_replace_append (e := e) hcolon hflat
  exact ⟨tail, by rw [render_eq, hr, Except.map, htail]⟩

end Markup
end DeletionGuard
