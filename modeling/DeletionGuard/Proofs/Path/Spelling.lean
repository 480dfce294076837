import DeletionGuard.FileTree.Walk
import DeletionGuard.Path.Basic
import DeletionGuard.Proofs.FileTree.Walking
import DeletionGuard.Proofs.Text.Cut

/-!
Paths and their texts. The text of an absolute path is read back as that path, and a walk reads its
components in it.
-/
namespace DeletionGuard.Path

def Proper (p : Path) : Prop :=
  ∀ s ∈ p.parts, isPart s = true ∧ '/' ∉ s.toList

variable {p q : Path} {s : String}

theorem isPart_iff : isPart s = true ↔ s ≠ "" ∧ s ≠ "." := by
  simp [isPart]

theorem proper_ofString (s : String) : (ofString s).Proper := by
  intro part hpart
  obtain ⟨hcut, hp⟩ := List.mem_filter.mp hpart
  exact ⟨hp, Text.not_mem_of_mem_cut hcut⟩

theorem Proper.join (hp : p.Proper) (hq : q.Proper) : (p.join q).Proper := by
  unfold Path.join
  split
  · exact hq
  · intro s hs
    obtain hs | hs := List.mem_append.mp hs
    · exact hp s hs
    · exact hq s hs

theorem Proper.child (hp : p.Proper) (hs : isPart s = true ∧ '/' ∉ s.toList) :
    (p.child s).Proper := by
  intro n hn
  obtain hn | hn := List.mem_append.mp hn
  · exact hp n hn
  · exact List.mem_singleton.mp hn ▸ hs

theorem Proper.parent (hp : p.Proper) : p.parent.Proper :=
  fun s hs => hp s (List.dropLast_subset _ hs)

theorem isPart_of_isName (h : IsName s) : isPart s = true ∧ '/' ∉ s.toList :=
  ⟨isPart_iff.mpr ⟨h.1, h.2.1⟩, h.2.2.2⟩

theorem isAbsolute_iff : p.isAbsolute = true ↔ p.root = .single ∨ p.root = .double := by
  unfold isAbsolute
  cases p.root <;> decide

theorem name_eq_getLast (hne : p.parts ≠ []) : p.name = p.parts.getLast hne := by
  rw [name, List.getLastD_eq_getLast?, List.getLast?_eq_some_getLast hne, Option.getD_some]

theorem child_parent_name (hne : p.parts ≠ []) : p.parent.child p.name = p := by
  rw [name_eq_getLast hne, child, parent, List.dropLast_concat_getLast hne]

theorem child_inj {n s : String} : p.child n = q.child s ↔ p = q ∧ n = s := by
  obtain ⟨root, parts⟩ := p
  obtain ⟨root', parts'⟩ := q
  simp only [child, Path.mk.injEq, List.append_singleton_inj, and_assoc]

@[simp] theorem isAbsolute_parent (p : Path) : p.parent.isAbsolute = p.isAbsolute :=
  rfl

theorem isAbsolute_join (hp : p.isAbsolute = true) (q : Path) : (p.join q).isAbsolute = true := by
  unfold join
  split
  · assumption
  · exact hp

theorem text_of_isAbsolute (hp : p.isAbsolute = true) :
    p.text = p.root.text ++ Text.glue '/' p.parts := by
  have hroot : p.root ≠ .relative := by simpa [isAbsolute] using hp
  simp [text, hroot]

theorem text_of_ne_nil (hne : p.parts ≠ []) : p.text = p.root.text ++ Text.glue '/' p.parts := by
  simp [text, hne]

theorem holds_text (hp : p.isAbsolute = true) {c : Char} (hc : c ≠ '/') :
    Text.holds c p.text = true ↔ ∃ s ∈ p.parts, Text.holds c s = true := by
  have hroot : c ∉ p.root.text.toList := by
    obtain h | h := isAbsolute_iff.mp hp <;> simp [h, Root.text, hc]
  simp only [Text.holds, List.contains_iff_mem, text_of_isAbsolute hp, String.toList_append,
    List.mem_append, Text.mem_glue hc, hroot, false_or]

theorem text_append_singleton {l : List String} (hne : l ≠ []) (s : String) :
    (Path.mk .single (l ++ [s])).text = (Path.mk .single l).text ++ "/" ++ s := by
  have hslash : String.singleton '/' = "/" := rfl
  rw [text_of_isAbsolute rfl, text_of_isAbsolute rfl, Text.glue_append_singleton hne, hslash]
  simp only [String.append_assoc]

theorem utf8ByteSize_text_append_singleton {l : List String} (hne : l ≠ []) (s : String) :
    (Path.mk .single (l ++ [s])).text.utf8ByteSize =
      (Path.mk .single l).text.utf8ByteSize + (s.utf8ByteSize + 1) := by
  have hslash : "/".utf8ByteSize = 1 := rfl
  rw [text_append_singleton hne, String.utf8ByteSize_append, String.utf8ByteSize_append, hslash]
  omega

theorem filter_cut_glue (hp : p.Proper) :
    (Text.cut '/' (Text.glue '/' p.parts)).filter (· ≠ "") = p.parts := by
  by_cases hnil : p.parts = []
  · rw [hnil]
    rfl
  · rw [Text.cut_glue hnil fun s hs => (hp s hs).2, List.filter_eq_self]
    intro s hs
    simpa using (isPart_iff.mp (hp s hs).1).1

theorem filter_cut_text (hp : p.Proper) (habs : p.isAbsolute = true) :
    (Text.cut '/' p.text).filter (· ≠ "") = p.parts := by
  have hslash (rest : String) :
      (Text.cut '/' ("/" ++ rest)).filter (· ≠ "") = (Text.cut '/' rest).filter (· ≠ "") := by
    have hempty : '/' ∉ "".toList := by simp
    have h := Text.cut_append_cons hempty rest
    rw [show "/" ++ rest = "" ++ String.singleton '/' ++ rest from rfl, h]
    simp
  rw [text_of_isAbsolute habs]
  obtain hroot | hroot := isAbsolute_iff.mp habs
  · rw [hroot, Root.text, hslash, filter_cut_glue hp]
  · rw [hroot, Root.text, show "//" = "/" ++ "/" from rfl, String.append_assoc, hslash, hslash,
      filter_cut_glue hp]

theorem toList_glue_append (front : List String) (s : String) :
    ∃ head, (Text.glue '/' (front ++ [s])).toList = head ++ s.toList := by
  induction front with
  | nil => exact ⟨[], by simp [Text.glue]⟩
  | cons r front ih =>
    obtain ⟨head, hhead⟩ := ih
    refine ⟨r.toList ++ '/' :: head, ?_⟩
    have hne : (front ++ [s]).map String.toList ≠ [] := by simp
    simp only [Text.glue, String.toList_ofList] at hhead
    simp only [Text.glue, String.toList_ofList, List.cons_append, List.map_cons,
      List.intercalate_cons_of_ne_nil hne, hhead]
    simp

theorem startsWith_text (habs : p.isAbsolute = true) : Text.startsWith p.text "/" = true := by
  rw [Text.startsWith_slash_iff, text_of_isAbsolute habs]
  obtain hroot | hroot := isAbsolute_iff.mp habs <;> simp [hroot, Root.text]

theorem startsWith_text_iff (hp : p.Proper) :
    Text.startsWith p.text "/" = true ↔ p.isAbsolute = true := by
  refine ⟨fun h => ?_, startsWith_text⟩
  cases habs : p.isAbsolute with
  | true => rfl
  | false =>
    have hroot : p.root = .relative := by simpa [isAbsolute] using habs
    by_cases hnil : p.parts = []
    · rw [Text.startsWith_slash_iff, text, if_pos ⟨hroot, hnil⟩] at h
      simp at h
    · rw [Text.startsWith_slash_iff, text_of_ne_nil hnil, hroot, Root.text,
        String.empty_append] at h
      obtain ⟨s, rest, hparts⟩ := List.exists_cons_of_ne_nil hnil
      obtain ⟨tail, htail⟩ := Text.toList_glue_cons '/' s rest
      have hs := hp s (by simp [hparts])
      have hnil : s.toList ≠ [] := by simpa using (isPart_iff.mp hs.1).1
      rw [hparts, htail, List.head?_append, List.head?_eq_some_head hnil, Option.some_or] at h
      exact absurd (Option.some.inj h ▸ List.head_mem hnil) hs.2

theorem endsWith_text (hp : p.Proper) (hne : p.parts ≠ []) :
    Text.endsWith p.text "/" = false := by
  rw [← Bool.not_eq_true, Text.endsWith_slash_iff, text_of_ne_nil hne,
    ← List.dropLast_concat_getLast hne]
  have hlast := hp _ (List.getLast_mem hne)
  obtain ⟨head, hhead⟩ := toList_glue_append p.parts.dropLast (p.parts.getLast hne)
  have hnil : (p.parts.getLast hne).toList ≠ [] := by
    simpa using (isPart_iff.mp hlast.1).1
  rw [String.toList_append, hhead, ← List.append_assoc, List.getLast?_append,
    List.getLast?_eq_some_getLast hnil, Option.some_or]
  intro hc
  exact hlast.2 (Option.some.inj hc ▸ List.getLast_mem hnil)

theorem route_text (hp : p.Proper) (habs : p.isAbsolute = true) :
    Route.ofString p.text = ⟨true, p.parts, p.parts.isEmpty⟩ := by
  rw [Route.ofString, startsWith_text habs, filter_cut_text hp habs]
  congr
  by_cases hnil : p.parts = []
  · rw [text_of_isAbsolute habs, hnil]
    obtain hroot | hroot := isAbsolute_iff.mp habs <;> rw [hroot] <;> decide
  · rw [endsWith_text hp hnil]
    simp [hnil]

theorem route_text_of_ne_nil (hp : p.Proper) (hne : p.parts ≠ []) :
    Route.ofString p.text = ⟨p.isAbsolute, p.parts, false⟩ := by
  cases habs : p.isAbsolute with
  | true => rw [route_text hp habs, List.isEmpty_eq_false_iff.mpr hne]
  | false =>
    have hroot : p.root = .relative := by simpa [isAbsolute] using habs
    have hstart : Text.startsWith p.text "/" = false := by
      rw [← Bool.not_eq_true, startsWith_text_iff hp, habs]
      exact nofun
    rw [Route.ofString, hstart, endsWith_text hp hne, text_of_ne_nil hne, hroot, Root.text,
      String.empty_append, filter_cut_glue hp]

theorem ofString_text (hp : p.Proper) (habs : p.isAbsolute = true) : ofString p.text = p := by
  have hparts : (Text.cut '/' p.text).filter isPart = p.parts := by
    have hfilter := congrArg (List.filter isPart) (filter_cut_text hp habs)
    rw [List.filter_filter] at hfilter
    have hsame : (fun s => isPart s && decide (s ≠ "")) = isPart := by
      funext s
      by_cases hs : s = "" <;> simp [isPart, hs]
    rw [hsame, List.filter_eq_self.mpr fun s hs => (hp s hs).1] at hfilter
    exact hfilter
  have hslashes (rest : List Char) (hrest : rest.head? ≠ some '/') :
      rest.takeWhile (· = '/') = [] := by
    cases rest with
    | nil => rfl
    | cons c rest => simpa [List.takeWhile_cons] using hrest
  have hhead : (Text.glue '/' p.parts).toList.head? ≠ some '/' := by
    cases hps : p.parts with
    | nil => simp [Text.glue, List.intercalate_nil]
    | cons s rest =>
      obtain ⟨tail, htail⟩ := Text.toList_glue_cons '/' s rest
      have hs := hp s (by simp [hps])
      have hnil : s.toList ≠ [] := by simpa using (isPart_iff.mp hs.1).1
      rw [htail, List.head?_append, List.head?_eq_some_head hnil, Option.some_or]
      intro hc
      exact hs.2 (Option.some.inj hc ▸ List.head_mem hnil)
  rw [ofString, hparts, text_of_isAbsolute habs]
  obtain ⟨root, parts⟩ := p
  obtain hroot | hroot := isAbsolute_iff.mp habs
  · obtain rfl : root = .single := hroot
    simp [Root.text, hslashes _ hhead, Root.ofSlashes]
  · obtain rfl : root = .double := hroot
    simp [Root.text, hslashes _ hhead, Root.ofSlashes]

theorem parts_ofString (text : String) :
    (ofString text).parts = FileTree.withoutDots (Route.ofString text).steps := by
  have hsame : (fun s => decide (s ≠ ".") && decide (s ≠ "")) = isPart := by
    funext s
    rw [isPart, Bool.and_comm]
  rw [FileTree.withoutDots, Route.ofString, List.filter_filter, hsame, ofString]

theorem isAbsolute_ofString (text : String) :
    (ofString text).isAbsolute = (Route.ofString text).absolute := by
  have hroute : (Route.ofString text).absolute = Text.startsWith text "/" := rfl
  rw [hroute, Bool.eq_iff_iff, Text.startsWith_slash_iff, ofString, isAbsolute]
  cases htext : text.toList with
  | nil => simp [Root.ofSlashes]
  | cons c cs =>
    by_cases hc : c = '/'
    · rw [hc, List.takeWhile_cons_of_pos (by simp), List.length_cons]
      match (cs.takeWhile (· = '/')).length with
      | 0 | 1 | _ + 2 => simp [Root.ofSlashes]
    · rw [List.takeWhile_cons_of_neg (by simpa using hc)]
      simp [Root.ofSlashes, hc]

theorem startsWith_of_steps_eq_nil {text : String} (hne : text ≠ "")
    (h : (Route.ofString text).steps = []) : Text.startsWith text "/" = true := by
  have hempty : ∀ s ∈ Text.cut '/' text, s = "" := by
    simpa using List.filter_eq_nil_iff.mp h
  have hglue := Text.glue_cut '/' text
  cases hcut : Text.cut '/' text with
  | nil => exact absurd hcut (Text.cut_ne_nil '/' text)
  | cons s rest =>
    rw [hcut] at hempty hglue
    obtain rfl : s = "" := hempty s List.mem_cons_self
    cases rest with
    | nil => exact absurd hglue.symm hne
    | cons s rest =>
      rw [← hglue, Text.startsWith_slash_iff]
      simp [Text.glue, List.intercalate_cons_cons]

theorem text_above (root : Root) {front parts : List String} (habs : root ≠ .relative)
    (hbelow : front <+: parts) :
    (Path.mk root front).text.toList <+: (Path.mk root parts).text.toList := by
  have hglue : (Text.glue '/' front).toList <+: (Text.glue '/' parts).toList := by
    obtain ⟨back, rfl⟩ := hbelow
    induction front with
    | nil => simp [Text.glue, List.intercalate_nil]
    | cons s front ih =>
      by_cases hfront : front = []
      · obtain ⟨tail, htail⟩ := Text.toList_glue_cons '/' s back
        rw [hfront, List.singleton_append, htail]
        exact ⟨tail, by simp [Text.glue]⟩
      · have hne : front.map String.toList ≠ [] := by simpa using hfront
        have hne' : (front ++ back).map String.toList ≠ [] := by simp [hfront]
        simp only [Text.glue, String.toList_ofList] at ih
        simp only [Text.glue, String.toList_ofList, List.cons_append, List.map_cons,
          List.intercalate_cons_of_ne_nil hne, List.intercalate_cons_of_ne_nil hne']
        exact List.prefix_append_right_inj _ |>.mpr ih
  have htext (parts : List String) :
      (Path.mk root parts).text = root.text ++ Text.glue '/' parts := by
    simp [text, habs]
  rw [htext, htext, String.toList_append, String.toList_append]
  exact List.prefix_append_right_inj _ |>.mpr hglue

@[simp] theorem root_ascend (p : Path) : p.ascend.root = p.root := by
  unfold ascend
  split
  · rfl
  · split <;> rfl

@[simp] theorem root_collapse (p : Path) : p.collapse.root = p.root := by
  have hfold (l : List String) (q : Path) :
      (l.foldl (fun q s => if s = ".." then q.ascend else q.child s) q).root = q.root := by
    induction l generalizing q with
    | nil => rfl
    | cons s l ih =>
      rw [List.foldl_cons, ih]
      split <;> simp
  exact hfold p.parts ⟨p.root, []⟩

theorem collapse_eq_self (h : ∀ s ∈ p.parts, s ≠ "..") : p.collapse = p := by
  have hfold (l : List String) (q : Path) (hl : ∀ s ∈ l, s ≠ "..") :
      l.foldl (fun q s => if s = ".." then q.ascend else q.child s) q =
        ⟨q.root, q.parts ++ l⟩ := by
    induction l generalizing q with
    | nil => simp
    | cons s l ih =>
      have hs : s ≠ ".." := hl s List.mem_cons_self
      rw [List.foldl_cons, if_neg hs, ih _ fun s hs => hl s (List.mem_cons_of_mem _ hs)]
      simp [child]
  rw [collapse, hfold p.parts _ h]
  simp

end DeletionGuard.Path
