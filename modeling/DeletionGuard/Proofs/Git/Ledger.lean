import DeletionGuard.Git.Porcelain

/-!
Ledgers as maps: a value that is recorded is found under its key, no other key notices, and no key
comes twice.
-/
namespace DeletionGuard.Git.Ledger

theorem lookup_replace (l : Ledger) (key : String) (value : Status) (k : String) :
    (l.map fun e => if e.1 = key then (key, value) else e).lookup k =
      if k = key then (l.lookup k).map fun _ => value else l.lookup k := by
  induction l with
  | nil => simp
  | cons e l ih =>
    rw [List.map_cons, List.lookup_cons, List.lookup_cons, ih]
    by_cases he : e.1 = key
    · by_cases hk : k = key
      · simp [he, hk]
      · have hb : (k == key) = false := by simpa using hk
        simp [he, hk, hb]
    · by_cases hk : k = e.1
      · simp [he, hk]
      · have hb : (k == e.1) = false := by simpa using hk
        simp [he, hb]

theorem any_key_iff (l : Ledger) (key : String) :
    (l.any (·.1 = key)) = true ↔ key ∈ l.map Prod.fst := by
  simp only [List.any_eq_true, decide_eq_true_eq, List.mem_map]

theorem lookup_eq_none_of_not_mem {l : Ledger} {key : String} (h : key ∉ l.map Prod.fst) :
    l.lookup key = none := by
  rw [List.lookup_eq_none_iff]
  intro e he
  have hne : key ≠ e.1 := fun hk => h (hk ▸ List.mem_map_of_mem he)
  simpa using hne

theorem lookup_record (l : Ledger) (key : String) (value : Status) (k : String) :
    (l.record key value).lookup k = if k = key then some value else l.lookup k := by
  unfold record
  by_cases h : (l.any (·.1 = key)) = true
  · rw [if_pos h, lookup_replace]
    have hmem : key ∈ l.map Prod.fst := (any_key_iff l key).mp h
    have hsome : ∃ v, l.lookup key = some v := by
      rw [← Option.isSome_iff_exists, List.lookup_isSome_iff]
      obtain ⟨e, he, hk⟩ := List.mem_map.mp hmem
      exact ⟨e, he, by simp [hk]⟩
    obtain ⟨v, hv⟩ := hsome
    by_cases hk : k = key
    · rw [if_pos hk, if_pos hk, hk, hv, Option.map_some]
    · rw [if_neg hk, if_neg hk]
  · rw [if_neg h]
    have hnone : l.lookup key = none :=
      lookup_eq_none_of_not_mem fun hm => h ((any_key_iff l key).mpr hm)
    rw [List.lookup_append, List.lookup_cons, List.lookup_nil]
    by_cases hk : k = key
    · simp [hk, hnone]
    · have hb : (k == key) = false := by simpa using hk
      simp [hk, hb]

theorem keys_replace (l : Ledger) (key : String) (value : Status) :
    (l.map fun e => if e.1 = key then (key, value) else e).map Prod.fst = l.map Prod.fst := by
  rw [List.map_map]
  apply List.map_congr_left
  intro e _
  by_cases he : e.1 = key
  · simp [he]
  · simp [he]

theorem nodup_record {l : Ledger} (h : (l.map Prod.fst).Nodup) (key : String) (value : Status) :
    ((l.record key value).map Prod.fst).Nodup := by
  unfold record
  by_cases hany : (l.any (·.1 = key)) = true
  · rw [if_pos hany, keys_replace]
    exact h
  · rw [if_neg hany, List.map_append, List.nodup_append]
    refine ⟨h, by simp, ?_⟩
    intro a ha b hb he
    have hkey : a = key := he.trans (List.mem_singleton.mp hb)
    exact hany ((any_key_iff l key).mpr (hkey ▸ ha))

end DeletionGuard.Git.Ledger
