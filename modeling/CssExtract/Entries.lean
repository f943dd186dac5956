namespace CssExtract

abbrev Entries (α : Type) := List (String × α)

namespace Entries

variable {α : Type}

def set (key : String) (value : α) : Entries α → Entries α
  | [] => [(key, value)]
  | (k, v) :: rest => if k = key then (key, value) :: rest else (k, v) :: set key value rest

def get? (key : String) : Entries α → Option α
  | [] => none
  | (k, v) :: rest => if k = key then some v else get? key rest

def erase (key : String) (entries : Entries α) : Entries α := entries.filter (·.1 ≠ key)

def setAll (entries new : Entries α) : Entries α := new.foldl (fun es (k, v) => es.set k v) entries

@[simp] theorem get?_set_self (key : String) (value : α) (entries : Entries α) :
    (entries.set key value).get? key = some value := by
  induction entries with
  | nil => simp [set, get?]
  | cons entry rest ih =>
    obtain ⟨k, v⟩ := entry
    by_cases h : k = key <;> simp [set, get?, h, ih]

theorem get?_set_of_ne {key other : String} (h : other ≠ key) (value : α) (entries : Entries α) :
    (entries.set key value).get? other = entries.get? other := by
  induction entries with
  | nil => simp [set, get?, Ne.symm h]
  | cons entry rest ih =>
    obtain ⟨k, v⟩ := entry
    by_cases hk : k = key
    · subst hk; simp [set, get?, Ne.symm h]
    · simp only [set, hk, if_false, get?, ih]

@[simp] theorem get?_erase_self (key : String) (entries : Entries α) :
    (entries.erase key).get? key = none := by
  induction entries with
  | nil => rfl
  | cons entry rest ih =>
    obtain ⟨k, v⟩ := entry
    by_cases h : k = key
    · simpa [erase, h] using ih
    · simpa [erase, get?, h] using ih

theorem keys_set (key : String) (value : α) (entries : Entries α) :
    (entries.set key value).map (·.1) =
      entries.map (·.1) ++ (if key ∈ entries.map (·.1) then [] else [key]) := by
  induction entries with
  | nil => simp [set]
  | cons entry rest ih =>
    obtain ⟨k, v⟩ := entry
    by_cases h : k = key
    · simp [set, h]
    · simp only [set, h, if_false, List.map_cons, ih, List.mem_cons, Ne.symm h, false_or,
        List.cons_append]

theorem mem_set {key : String} {value : α} {entries : Entries α} {entry : String × α}
    (h : entry ∈ entries.set key value) : entry = (key, value) ∨ entry ∈ entries := by
  induction entries with
  | nil => simpa [set] using h
  | cons first rest ih =>
    obtain ⟨k, v⟩ := first
    simp only [set] at h
    split at h
    · exact (List.mem_cons.1 h).imp_right (List.mem_cons_of_mem _)
    · rcases List.mem_cons.1 h with rfl | h
      · exact .inr List.mem_cons_self
      · exact (ih h).imp_right (List.mem_cons_of_mem _)

theorem set_of_notMem {key : String} (value : α) {entries : Entries α}
    (h : key ∉ entries.map (·.1)) : entries.set key value = entries ++ [(key, value)] := by
  induction entries with
  | nil => rfl
  | cons entry rest ih =>
    obtain ⟨k, v⟩ := entry
    rw [List.map_cons, List.mem_cons, not_or] at h
    rw [set, if_neg (Ne.symm h.1), ih h.2, List.cons_append]

theorem nodup_keys_set {key : String} {value : α} {entries : Entries α}
    (h : (entries.map (·.1)).Nodup) : ((entries.set key value).map (·.1)).Nodup := by
  rw [keys_set]
  split
  · simpa using h
  · rename_i hnew
    refine List.nodup_append.2 ⟨h, by simp, fun k hk k' hk' hsame => ?_⟩
    rw [List.mem_singleton.1 hk'] at hsame
    exact hnew (hsame ▸ hk)

theorem get?_of_mem {key : String} {value : α} {entries : Entries α}
    (hkeys : (entries.map (·.1)).Nodup) (h : (key, value) ∈ entries) :
    entries.get? key = some value := by
  induction entries with
  | nil => simp at h
  | cons entry rest ih =>
    obtain ⟨k, v⟩ := entry
    obtain ⟨hnew, hkeys⟩ := List.nodup_cons.1 hkeys
    rcases List.mem_cons.1 h with hsame | h
    · obtain ⟨rfl, rfl⟩ := Prod.mk.inj hsame
      simp [get?]
    · have hne : k ≠ key := fun hsame => hnew (List.mem_map.2 ⟨_, h, hsame.symm⟩)
      rw [get?, if_neg hne, ih hkeys h]

theorem get?_of_notMem {key : String} {entries : Entries α} (h : key ∉ entries.map (·.1)) :
    entries.get? key = none := by
  induction entries with
  | nil => rfl
  | cons entry rest ih =>
    rw [List.map_cons, List.mem_cons, not_or] at h
    rw [get?, if_neg (Ne.symm h.1), ih h.2]

theorem eq_of_get?_eq {entries entries' : Entries α}
    (hkeys : entries.map (·.1) = entries'.map (·.1)) (hnodup : (entries.map (·.1)).Nodup)
    (hget : ∀ key, entries.get? key = entries'.get? key) : entries = entries' := by
  induction entries generalizing entries' with
  | nil => exact (List.map_eq_nil_iff.1 hkeys.symm).symm
  | cons entry rest ih =>
    obtain ⟨key, value⟩ := entry
    cases entries' with
    | nil => simp at hkeys
    | cons entry' rest' =>
      obtain ⟨key', value'⟩ := entry'
      obtain ⟨rfl, hkeys'⟩ : key = key' ∧ rest.map (·.1) = rest'.map (·.1) := by
        simpa using hkeys
      obtain ⟨hnew, hnodup⟩ := List.nodup_cons.1 hnodup
      obtain rfl : value = value' := by simpa [get?] using hget key
      have hrest : rest = rest' := by
        apply ih hkeys' hnodup
        intro other
        by_cases hother : key = other
        · subst hother
          rw [get?_of_notMem hnew, get?_of_notMem (hkeys' ▸ hnew)]
        · simpa [get?, hother] using hget other
      rw [hrest]

theorem setAll_of_nodup {entries new : Entries α} (h : ((entries ++ new).map (·.1)).Nodup) :
    entries.setAll new = entries ++ new := by
  induction new generalizing entries with
  | nil => simp [setAll]
  | cons entry new ih =>
    obtain ⟨k, v⟩ := entry
    rw [List.append_cons] at h ⊢
    have hfront := (List.nodup_append.1 (List.map_append ▸ h)).1
    have hfresh : k ∉ entries.map (·.1) := fun hk => by
      rw [List.map_append] at hfront
      exact (List.nodup_append.1 hfront).2.2 k hk k (by simp) rfl
    rw [← set_of_notMem v hfresh] at h ⊢
    exact ih h

theorem foldl_setAll_of_nodup {entries : Entries α} {all : List (Entries α)}
    (h : ((entries ++ all.flatten).map (·.1)).Nodup) :
    all.foldl setAll entries = entries ++ all.flatten := by
  induction all generalizing entries with
  | nil => simp
  | cons new all ih =>
    rw [List.flatten_cons, ← List.append_assoc] at h ⊢
    have hfront := (List.nodup_append.1 (List.map_append ▸ h)).1
    rw [List.foldl_cons, setAll_of_nodup hfront]
    exact ih h

end Entries

end CssExtract
