import Mathlib.Data.List.Sort
import PoolScaling.Dictionary

/-! Look-ups in dictionaries.

An insertion changes the look-up of its own key alone (`find?_insert`) and keeps the
keys in order. Where no key is there twice the pairs are the look-ups
(`mem_iff_find?_of_nodup`), and an ordered dictionary is determined by them
(`Ordered.ext`). -/
namespace PoolScaling.Dictionary

variable {α : Type} {d d' : Dictionary α} {k k' : String} {v : α}

theorem find?_insert (k k' : String) (v : α) (d : Dictionary α) :
    find? k' (insert k v d) = if k' = k then some v else find? k' d := by
  induction d with
  | nil => rfl
  | cons first rest ih =>
    obtain ⟨k₁, v₁⟩ := first
    rw [insert]
    split
    · rfl
    · split
      · rename_i heq
        subst heq
        by_cases hk : k' = k
        · rw [find?, if_pos hk, if_pos hk]
        · rw [find?, if_neg hk, if_neg hk, find?, if_neg hk]
      · rename_i hne
        rw [find?, find?, ih]
        by_cases hk : k' = k₁
        · rw [if_pos hk, if_pos hk, if_neg fun h => hne (h.symm.trans hk)]
        · rw [if_neg hk, if_neg hk]

theorem mem_insert {p : String × α} (h : p ∈ insert k v d) : p = (k, v) ∨ p ∈ d := by
  induction d with
  | nil => exact .inl (List.mem_singleton.mp h)
  | cons first rest ih =>
    obtain ⟨k₁, v₁⟩ := first
    rw [insert] at h
    split at h
    · exact List.mem_cons.mp h
    · split at h
      · exact (List.mem_cons.mp h).imp_right (List.mem_cons_of_mem _)
      · rcases List.mem_cons.mp h with rfl | h
        · exact .inr List.mem_cons_self
        · exact (ih h).imp_right (List.mem_cons_of_mem _)

theorem Ordered.insert (h : Ordered d) (k : String) (v : α) : Ordered (insert k v d) := by
  induction d with
  | nil => exact List.pairwise_singleton _ _
  | cons first rest ih =>
    obtain ⟨k₁, v₁⟩ := first
    have hfirst := (List.pairwise_cons.mp h).1
    have hrest := (List.pairwise_cons.mp h).2
    rw [Dictionary.insert]
    split
    · rename_i hlt
      refine List.pairwise_cons.mpr ⟨fun p hp => ?_, h⟩
      rcases List.mem_cons.mp hp with rfl | hp
      · exact hlt
      · exact String.lt_trans hlt (hfirst p hp)
    · rename_i hge
      split
      · rename_i heq
        subst heq
        exact List.pairwise_cons.mpr ⟨hfirst, hrest⟩
      · rename_i hne
        refine List.pairwise_cons.mpr ⟨fun p hp => ?_, ih hrest⟩
        rcases mem_insert hp with rfl | hp
        · exact Std.lt_of_le_of_ne (String.not_lt.mp hge) (Ne.symm hne)
        · exact hfirst p hp

theorem mem_of_find? (h : find? k d = some v) : (k, v) ∈ d := by
  induction d with
  | nil => cases h
  | cons first rest ih =>
    obtain ⟨k₁, v₁⟩ := first
    rw [find?] at h
    split at h
    · rename_i heq
      cases h
      rw [heq]
      exact List.mem_cons_self
    · exact List.mem_cons_of_mem _ (ih h)

theorem find?_eq_none (h : k ∉ keys d) : find? k d = none := by
  cases hfind : find? k d with
  | none => rfl
  | some v => exact absurd (List.mem_map_of_mem (mem_of_find? hfind)) h

theorem find?_map {β : Type} (k : String) (f : String → α → β) (d : Dictionary α) :
    find? k (d.map fun (k, v) => (k, f k v)) = (find? k d).map (f k) := by
  induction d with
  | nil => rfl
  | cons first rest ih =>
    obtain ⟨k₁, v₁⟩ := first
    rw [List.map_cons, find?, find?, ih]
    by_cases hk : k = k₁
    · rw [if_pos hk, if_pos hk, hk]
      rfl
    · rw [if_neg hk, if_neg hk]

/-- The pairs are the look-ups when no key is there twice. -/
theorem mem_iff_find?_of_nodup (h : (keys d).Nodup) : (k, v) ∈ d ↔ find? k d = some v := by
  refine ⟨fun hmem => ?_, mem_of_find?⟩
  induction d with
  | nil => cases hmem
  | cons first rest ih =>
    obtain ⟨k₁, v₁⟩ := first
    obtain ⟨hfirst, hrest⟩ := List.nodup_cons.mp h
    rw [find?]
    rcases List.mem_cons.mp hmem with heq | htail
    · cases heq
      rw [if_pos rfl]
    · have hne : k ≠ k₁ := by
        rintro rfl
        have hkey : k ∈ keys rest := List.mem_map_of_mem htail
        exact hfirst hkey
      rw [if_neg hne]
      exact ih hrest htail

/-! ### Ordered dictionaries -/

theorem Ordered.nodup (h : Ordered d) : (keys d).Nodup :=
  List.pairwise_map.mpr (h.imp fun hlt => String.ne_of_lt hlt)

/-- The pairs of an ordered dictionary are its look-ups. -/
theorem mem_iff_find? (h : Ordered d) : (k, v) ∈ d ↔ find? k d = some v := mem_iff_find?_of_nodup h.nodup

/-- Two dictionaries with the same pairs are the same list. -/
theorem Ordered.ext (h : Ordered d) (h' : Ordered d') (hmem : ∀ k v, (k, v) ∈ d ↔ (k, v) ∈ d') : d = d' := by
  have : Std.Irrefl fun a b : String × α => a.1 < b.1 := ⟨fun a => String.lt_irrefl a.1⟩
  have : Std.Antisymm fun a b : String × α => a.1 < b.1 := ⟨fun a b hab hba => absurd hba (String.lt_asymm hab)⟩
  exact List.Pairwise.eq_of_mem_iff h h' fun a => hmem a.1 a.2

theorem Ordered.insertAll (h : Ordered d) (pairs : List (String × α)) : Ordered (insertAll d pairs) := by
  induction pairs generalizing d with
  | nil => exact h
  | cons pair pairs ih => exact ih (h.insert pair.1 pair.2)

theorem ordered_ofList (pairs : List (String × α)) : Ordered (ofList pairs) :=
  Ordered.insertAll (d := []) List.Pairwise.nil pairs

theorem find?_insertAll {pairs : List (String × α)} (h : (keys pairs).Nodup) (d : Dictionary α) :
    find? k (insertAll d pairs) = (find? k pairs).or (find? k d) := by
  induction pairs generalizing d with
  | nil => rfl
  | cons pair pairs ih =>
    obtain ⟨k₁, v₁⟩ := pair
    obtain ⟨hfirst, hrest⟩ := List.nodup_cons.mp h
    have hstep : find? k (Dictionary.insertAll (Dictionary.insert k₁ v₁ d) pairs) =
        (find? k pairs).or (find? k (Dictionary.insert k₁ v₁ d)) := ih hrest _
    refine hstep.trans ?_
    rw [find?_insert, find?]
    by_cases hk : k = k₁
    · subst hk
      rw [if_pos rfl, if_pos rfl, find?_eq_none hfirst]
      rfl
    · rw [if_neg hk, if_neg hk]

theorem find?_append (d' : Dictionary α) : find? k (d ++ d') = (find? k d).or (find? k d') := by
  induction d with
  | nil => rfl
  | cons first rest ih =>
    obtain ⟨k₁, v₁⟩ := first
    rw [List.cons_append, find?, find?, ih]
    by_cases hk : k = k₁
    · rw [if_pos hk, if_pos hk]
      rfl
    · rw [if_neg hk, if_neg hk]

/-- Of several pairs with a key the last one is kept. -/
theorem find?_insertAll_reverse (pairs : List (String × α)) (d : Dictionary α) :
    find? k (insertAll d pairs) = (find? k pairs.reverse).or (find? k d) := by
  induction pairs generalizing d with
  | nil => rfl
  | cons pair pairs ih =>
    obtain ⟨k₁, v₁⟩ := pair
    have hstep : find? k (Dictionary.insertAll (Dictionary.insert k₁ v₁ d) pairs) =
        (find? k pairs.reverse).or (find? k (Dictionary.insert k₁ v₁ d)) := ih _
    refine hstep.trans ?_
    rw [find?_insert, List.reverse_cons, find?_append, Option.or_assoc, find?, find?]
    by_cases hk : k = k₁
    · rw [if_pos hk, if_pos hk]
      rfl
    · rw [if_neg hk, if_neg hk]
      rfl

/-- Pairs with distinct keys are all kept. -/
theorem mem_ofList {pairs : List (String × α)} (h : (keys pairs).Nodup) :
    (k, v) ∈ ofList pairs ↔ (k, v) ∈ pairs := by
  rw [mem_iff_find? (ordered_ofList pairs), mem_iff_find?_of_nodup h, ofList, find?_insertAll h]
  simp [find?]

theorem perm_ofList {pairs : List (String × α)} (h : (keys pairs).Nodup) : (ofList pairs).Perm pairs := by
  have hnodup : (ofList pairs).Nodup := List.Nodup.of_map Prod.fst (ordered_ofList pairs).nodup
  exact (List.perm_ext_iff_of_nodup hnodup (List.Nodup.of_map Prod.fst h)).mpr fun p => mem_ofList h

/-! ### Other keys -/

/-- The dictionary with every key replaced. -/
def rename (f : String → String) (d : Dictionary α) : Dictionary α := ofList (d.map fun p => (f p.1, p.2))

/-- With distinct keys, nothing but the keys and the order changes. -/
theorem perm_rename {f : String → String} (h : ((keys d).map f).Nodup) :
    (rename f d).Perm (d.map fun p => (f p.1, p.2)) := by
  refine perm_ofList ?_
  rw [keys, List.map_map] at h ⊢
  exact h

theorem keys_rename {f : String → String} (h : ((keys d).map f).Nodup) :
    (keys (rename f d)).Perm ((keys d).map f) := by
  have hkeys := (perm_rename h).map Prod.fst
  rw [List.map_map] at hkeys
  rw [keys, keys, List.map_map]
  exact hkeys

end PoolScaling.Dictionary
