import DeletionGuard.Proofs.Path.Place
import DeletionGuard.Toml.Document
import Mathlib.Data.Option.Basic

/-!
What a configuration file describes holds no mark of an absent setting: the format has no word for
it. So the settings of a table that was read are just its entries.
-/
namespace DeletionGuard.Toml

/-- Nothing in a value is the mark of a setting that is not made. -/
inductive Value.Filled : Value → Prop where
  | atom {v : Value} (hmade : v ≠ .nothing) (hflat : v.isNested = false) : Filled v
  | array {items : List Value} (h : ∀ v ∈ items, Filled v) : Filled (.array items)
  | table {entries : List (String × Value)} (h : ∀ e ∈ entries, Filled e.2) :
    Filled (.table entries)

def Table.Filled (t : Table) : Prop :=
  ∀ e ∈ t, e.2.Filled

variable {t u : Table} {key : Key} {k : String} {v : Value} {items : List Value}
  {cs rest : List Char}

namespace Value

theorem Filled.ne_nothing (h : v.Filled) : v ≠ .nothing := by
  cases h with
  | atom hmade => exact hmade
  | array | table => exact nofun

theorem Filled.of_array (h : (Value.array items).Filled) : ∀ v ∈ items, v.Filled := by
  cases h with
  | atom _ hflat => exact absurd hflat nofun
  | array h => exact h

theorem Filled.of_table (h : (Value.table t).Filled) : t.Filled := by
  cases h with
  | atom _ hflat => exact absurd hflat nofun
  | table h => exact h

end Value

namespace Table

theorem Filled.lookup (h : t.Filled) (hlookup : List.lookup k t = some v) : v.Filled := by
  obtain ⟨front, back, rfl, -⟩ := List.lookup_eq_some_iff.mp hlookup
  exact h (k, v) (by simp)

theorem Filled.append (h : t.Filled) (hv : v.Filled) : Table.Filled (t ++ [(k, v)]) := by
  intro e he
  obtain he | he := List.mem_append.mp he
  · exact h e he
  · rwa [List.mem_singleton.mp he]

theorem Filled.replace (h : t.Filled) (hv : v.Filled) : (t.replace k v).Filled := by
  intro e he
  obtain ⟨e', he', rfl⟩ := List.mem_map.mp he
  split
  · exact hv
  · exact h e' he'

theorem Filled.insertNew (h : t.Filled) (hv : v.Filled) (hu : insertNew k v t = some u) :
    u.Filled := by
  unfold Table.insertNew at hu
  split at hu
  · exact absurd hu nofun
  · exact Option.some.inj hu ▸ h.append hv

theorem filled_nil : Table.Filled [] :=
  nofun

theorem Filled.pushTable (h : t.Filled) (hu : pushTable k t = some u) : u.Filled := by
  unfold Table.pushTable at hu
  split at hu
  · exact Option.some.inj hu ▸
      h.append (.array fun v hv => List.mem_singleton.mp hv ▸ .table filled_nil)
  · rename_i items hlookup
    have hitems := (h.lookup hlookup).of_array
    refine Option.some.inj hu ▸ h.replace (.array fun v hv => ?_)
    obtain hv | hv := List.mem_append.mp hv
    · exact hitems v hv
    · exact List.mem_singleton.mp hv ▸ .table filled_nil
  · exact absurd hu nofun

theorem Filled.modifyAt {enterArrays : Bool} {f : Table → Option Table}
    (hf : ∀ t u, t.Filled → f t = some u → u.Filled) (h : t.Filled)
    (hu : modifyAt enterArrays f key t = some u) : u.Filled := by
  induction key generalizing t u with
  | nil => exact hf t u h hu
  | cons k rest ih =>
    unfold Table.modifyAt at hu
    split at hu
    · obtain ⟨inner, hinner, rfl⟩ := Option.map_eq_some_iff.mp hu
      exact h.append (.table (ih filled_nil hinner))
    · rename_i entries hlookup
      obtain ⟨inner, hinner, rfl⟩ := Option.map_eq_some_iff.mp hu
      exact h.replace (.table (ih (h.lookup hlookup).of_table hinner))
    · rename_i items hlookup
      have hitems := (h.lookup hlookup).of_array
      split at hu
      · exact absurd hu nofun
      · split at hu
        · rename_i entries hlast
          obtain ⟨inner, hinner, rfl⟩ := Option.map_eq_some_iff.mp hu
          have hinner := ih (hitems _ (List.mem_of_getLast? hlast)).of_table hinner
          refine h.replace (.array fun v hv => ?_)
          obtain hv | hv := List.mem_append.mp hv
          · exact hitems v (List.dropLast_subset _ hv)
          · exact List.mem_singleton.mp hv ▸ .table hinner
        · exact absurd hu nofun
    · exact absurd hu nofun

end Table

theorem checked_eq_ok {α : Type} {r : Option (α × List Char)} {found : α × List Char} :
    Reader.checked r = .ok found ↔ r = some found := by
  cases r <;> simp [Reader.checked]

theorem filled_readBased {letter : Char} {base : Nat} {isDigit : Char → Bool}
    (h : readBased letter base isDigit cs = some (v, rest)) : v.Filled := by
  unfold readBased at h
  split at h
  · split at h
    · obtain ⟨_, _, heq⟩ := Option.map_eq_some_iff.mp h
      cases heq
      exact .atom nofun rfl
    · exact absurd h nofun
  · exact absurd h nofun

theorem filled_readMarked (h : readMarked cs = some (v, rest)) : v.Filled := by
  unfold readMarked at h
  obtain h | ⟨-, h⟩ := (Option.orElse_eq_some _ _ _).mp h
  · exact filled_readBased h
  · obtain h | ⟨-, h⟩ := (Option.orElse_eq_some _ _ _).mp h
    · exact filled_readBased h
    · exact filled_readBased h

theorem filled_readDecimal (h : readDecimal cs = some (v, rest)) : v.Filled := by
  unfold readDecimal at h
  simp only at h
  split at h
  · exact absurd h nofun
  · split at h <;>
    · cases h
      exact .atom nofun rfl

theorem filled_readSpecial (h : readSpecial cs = some (v, rest)) : v.Filled := by
  unfold readSpecial at h
  simp only at h
  split at h <;> cases h <;> exact .atom nofun rfl

theorem filled_readNumber (h : readNumber cs = .ok (v, rest)) : v.Filled := by
  unfold readNumber at h
  split at h
  · rename_i found hfound
    cases h
    exact filled_readMarked hfound
  · split at h
    · cases h
      exact .atom nofun rfl
    · exact absurd h nofun
  · rename_i found _ hfound
    cases h
    exact filled_readDecimal hfound
  · exact filled_readSpecial (checked_eq_ok.mp h)

theorem filled_momentAfter {d : Date} : (momentAfter d cs).1.Filled := by
  unfold momentAfter
  split <;> exact .atom nofun rfl

theorem filled_readWord (h : readWord cs = some (v, rest)) : v.Filled := by
  unfold readWord at h
  split at h <;> cases h <;> exact .atom nofun rfl

theorem filled_readAtom (h : readAtom cs = .ok (v, rest)) : v.Filled := by
  unfold readAtom at h
  split at h
  · split at h
    · have hv : (momentAfter _ _).1 = v := congrArg Prod.fst (Except.ok.inj h)
      exact hv ▸ filled_momentAfter
    · exact absurd h nofun
  · split at h
    · rename_i found hfound
      cases h
      obtain hfound | ⟨-, hfound⟩ := (Option.orElse_eq_some _ _ _).mp hfound
      · obtain ⟨_, _, heq⟩ := Option.map_eq_some_iff.mp hfound
        cases heq
        exact .atom nofun rfl
      · exact filled_readWord hfound
    · exact filled_readNumber h

theorem filled_readText
    (h : Reader.checked ((readQuoted cs).map fun (s, cs) => (.string s, cs)) = .ok (v, rest)) :
    v.Filled := by
  obtain ⟨_, _, heq⟩ := Option.map_eq_some_iff.mp (checked_eq_ok.mp h)
  cases heq
  exact .atom nofun rfl

theorem Inline.filled_add {t u : Inline} (h : t.table.Filled) (hv : v.Filled)
    (hu : t.add key v = some u) : u.table.Filled := by
  unfold Inline.add at hu
  split at hu
  · exact absurd hu nofun
  · obtain ⟨table, htable, rfl⟩ := Option.map_eq_some_iff.mp hu
    exact h.modifyAt (fun _ _ h hu => h.insertNew hv hu) htable

/-- What the readers of nested values give, up to a depth, is filled. -/
structure ReadsFilled (n : Nat) : Prop where
  value : ∀ cs v rest, readValue n cs = .ok (v, rest) → v.Filled
  items : ∀ cs items rest, readItems n cs = .ok (items, rest) → ∀ v ∈ items, v.Filled
  entries : ∀ t cs v rest, Table.Filled t.table → readEntries n t cs = .ok (v, rest) → v.Filled

theorem ReadsFilled.readValue {n : Nat} (h : ReadsFilled n)
    (hv : readValue (n + 1) cs = .ok (v, rest)) : v.Filled := by
  rw [Toml.readValue.eq_def] at hv
  dsimp only at hv
  split at hv
  · exact filled_readText hv
  · exact filled_readText hv
  · split at hv
    · exact absurd hv nofun
    · cases hv
      exact .array nofun
    · obtain ⟨found, hread, heq⟩ := World.map_eq_ok.mp hv
      cases heq
      exact .array (h.items _ _ _ hread)
  · split at hv
    · cases hv
      exact .table Table.filled_nil
    · exact h.entries _ _ _ _ Table.filled_nil hv
  · exact filled_readAtom hv

theorem ReadsFilled.readItems {n : Nat} (h : ReadsFilled n)
    (hitems : readItems (n + 1) cs = .ok (items, rest)) : ∀ v ∈ items, v.Filled := by
  rw [Toml.readItems] at hitems
  split at hitems
  · exact absurd hitems nofun
  · rename_i v cs hv
    have hv := h.value _ _ _ hv
    have hone : ∀ x ∈ [v], x.Filled := List.forall_mem_singleton.mpr hv
    split at hitems
    · cases hitems
      exact hone
    · split at hitems
      · cases hitems
        exact hone
      · obtain ⟨found, hread, heq⟩ := World.map_eq_ok.mp hitems
        cases heq
        exact List.forall_mem_cons.mpr ⟨hv, h.items _ _ _ hread⟩
      · exact absurd hitems nofun
    · exact absurd hitems nofun

theorem ReadsFilled.readEntries {n : Nat} {t : Inline} (h : ReadsFilled n) (ht : t.table.Filled)
    (hv : readEntries (n + 1) t cs = .ok (v, rest)) : v.Filled := by
  rw [Toml.readEntries] at hv
  split at hv
  · split at hv
    · exact absurd hv nofun
    · rename_i hread
      split at hv
      · exact absurd hv nofun
      · rename_i hadd
        have ht := Inline.filled_add ht (h.value _ _ _ hread) hadd
        split at hv
        · cases hv
          exact .table ht
        · exact h.entries _ _ _ _ ht hv
        · exact absurd hv nofun
  · exact absurd hv nofun

/-- The induction is on the depth that all three readers share. -/
theorem readsFilled (n : Nat) : ReadsFilled n := by
  induction n with
  | zero =>
    refine ⟨fun cs v rest h => ?_, fun cs items rest h => ?_, fun t cs v rest _ h => ?_⟩
    · rw [readValue] at h
      exact absurd h nofun
    · rw [readItems] at h
      exact absurd h nofun
    · rw [readEntries] at h
      exact absurd h nofun
  | succ n ih =>
    exact ⟨fun _ _ _ => ih.readValue, fun _ _ _ => ih.readItems, fun _ _ _ _ => ih.readEntries⟩

theorem filled_readStatement
    (h : readStatement cs = .ok (.entry key v, rest)) : v.Filled := by
  unfold readStatement at h
  split at h
  · split at h <;> cases h
  · split at h <;> cases h
  · split at h
    · obtain ⟨found, hread, heq⟩ := World.map_eq_ok.mp h
      cases heq
      exact (readsFilled _).value _ _ _ hread
    · exact absurd h nofun

namespace Document
variable {d d' : Document}

theorem filled_step {s : Statement} (h : d.table.Filled) (hs : ∀ key v, s = .entry key v → v.Filled)
    (hd : d.step s = some d') : d'.table.Filled := by
  cases s with
  | entry key v =>
    simp only [step, addEntry] at hd
    split at hd
    · exact absurd hd nofun
    · obtain ⟨table, htable, rfl⟩ := Option.map_eq_some_iff.mp hd
      exact h.modifyAt (fun _ _ h hu => h.insertNew (hs key v rfl) hu) htable
  | table key =>
    simp only [step, addTable] at hd
    split at hd
    · exact absurd hd nofun
    · obtain ⟨table, htable, rfl⟩ := Option.map_eq_some_iff.mp hd
      exact Table.Filled.modifyAt (fun _ _ h hu => Option.some.inj hu ▸ h) h htable
  | item key =>
    simp only [step, addItem] at hd
    split at hd
    · exact absurd hd nofun
    · obtain ⟨table, htable, rfl⟩ := Option.map_eq_some_iff.mp hd
      exact Table.Filled.modifyAt (fun _ _ h hu => h.pushTable hu) h htable

theorem filled_readOn {n : Nat} (h : d.table.Filled) (hd : readOn n d cs = .ok d') :
    d'.table.Filled := by
  induction n generalizing d cs with
  | zero => exact absurd hd nofun
  | succ n ih =>
    rw [readOn] at hd
    split at hd
    · exact Except.ok.inj hd ▸ h
    · split at hd
      · split at hd
        · exact absurd hd nofun
        · exact ih h hd
      · split at hd
        · exact absurd hd nofun
        · rename_i s cs hread
          split at hd
          · rename_i hstep _
            exact ih (filled_step h (fun key v hs => filled_readStatement (hs ▸ hread)) hstep) hd
          · exact absurd hd nofun

end Document

theorem Table.filled_ofBytes {data : ByteArray} (h : Table.ofBytes data = .ok t) : t.Filled := by
  unfold Table.ofBytes at h
  split at h
  · exact absurd h nofun
  · obtain ⟨d, hd, rfl⟩ := World.map_eq_ok.mp h
    exact Document.filled_readOn filled_nil hd

end DeletionGuard.Toml
