import CssExtract.Proofs.Building
import Mathlib

namespace CssExtract

theorem eraseDups_concat {α : Type} [BEq α] [LawfulBEq α] [DecidableEq α] (l : List α) (a : α) :
    (l ++ [a]).eraseDups = l.eraseDups ++ if a ∈ l then [] else [a] := by
  rw [List.eraseDups_append]
  congr 1
  by_cases h : a ∈ l <;> simp [h, List.removeAll, List.eraseDups_cons]

theorem nodup_eraseDups {α : Type} [BEq α] [LawfulBEq α] [DecidableEq α] (l : List α) :
    l.eraseDups.Nodup := by
  induction l using List.reverseRecOn with
  | nil => exact List.nodup_nil
  | append_singleton l a ih =>
      rw [eraseDups_concat]
      split_ifs with hmem
      · rwa [List.append_nil]
      · refine List.nodup_append.2 ⟨ih, List.pairwise_singleton _ _, ?_⟩
        rintro b hb other hother rfl
        exact hmem (List.mem_eraseDups.1 (List.mem_singleton.1 hother ▸ hb))

end CssExtract

namespace CssExtract.Styled

open Script (Node)

def numberedId (slug : String) (n : Nat) : String := slug ++ "-" ++ toString n

theorem numberedId_inj {slug : String} {m n : Nat} : numberedId slug m = numberedId slug n ↔ m = n := by
  constructor
  · intro h
    exact Nat.repr_injective ((String.append_right_inj _).1 h)
  · rintro rfl
    rfl

/-- The ids issued for keys, each of which is a source with a unit. -/
def issuedFor (slug : String) (keys : List (String × String)) : Variables where
  next := keys.length
  ids := keys.zipIdx.map fun (key, n) => (key, numberedId slug n)

def withKey (keys : List (String × String)) (key : String × String) : List (String × String) :=
  if key ∈ keys then keys else keys ++ [key]

def idIn (slug : String) (keys : List (String × String)) (key : String × String) : String :=
  numberedId slug (keys.idxOf key)

variable {slug : String} {keys keys' : List (String × String)} {key other : String × String}

theorem idIn_inj (h : key ∈ keys) : idIn slug keys key = idIn slug keys other ↔ key = other := by
  rw [idIn, idIn, numberedId_inj, List.idxOf_inj h]

theorem idIn_of_prefix (hkeys : keys <+: keys') (h : key ∈ keys) :
    idIn slug keys' key = idIn slug keys key := by
  rw [idIn, idIn, hkeys.idxOf_eq_of_mem h]

theorem mem_withKey (keys : List (String × String)) (key : String × String) :
    key ∈ withKey keys key := by
  simp only [withKey]
  split_ifs with h
  · exact h
  · simp

theorem prefix_withKey (keys : List (String × String)) (key : String × String) :
    keys <+: withKey keys key := by
  simp only [withKey]
  split_ifs
  · exact List.prefix_refl keys
  · exact List.prefix_append keys _

theorem lookup_issuedFor (slug : String) (keys : List (String × String)) (key : String × String) :
    (issuedFor slug keys).ids.lookup key = if key ∈ keys then some (idIn slug keys key) else none := by
  have hfrom (n : Nat) : ((keys.zipIdx n).map fun (key, n) => (key, numberedId slug n)).lookup key =
      if key ∈ keys then some (numberedId slug (n + keys.idxOf key)) else none := by
    induction keys generalizing n with
    | nil => simp
    | cons first keys ih =>
        by_cases hfirst : key = first
        · simp [hfirst]
        · simp only [List.zipIdx_cons, List.map_cons, List.lookup_cons, List.mem_cons, hfirst,
            false_or, ih, beq_eq_false_iff_ne.2 hfirst, List.idxOf_cons_ne keys (Ne.symm hfirst)]
          simp only [Nat.add_assoc, Nat.add_comm 1]
  simpa [issuedFor, idIn] using hfrom 0

theorem run_idFor (c : VariableContext) (v : Variables) :
    (Variables.idFor .default c).run v =
      match v.ids.lookup (c.source, c.unit) with
      | some id => (id, v)
      | none =>
        (numberedId c.componentSlug v.next,
          ⟨v.next + 1, v.ids ++ [((c.source, c.unit), numberedId c.componentSlug v.next)]⟩) := by
  simp only [Variables.idFor, StateT.run_bind, StateT.run_get]
  cases h : v.ids.lookup (c.source, c.unit) <;> simp [h] <;> rfl

theorem idFor_default (c : VariableContext) (keys : List (String × String)) :
    (Variables.idFor .default c).run (issuedFor c.componentSlug keys) =
      (idIn c.componentSlug (withKey keys (c.source, c.unit)) (c.source, c.unit),
        issuedFor c.componentSlug (withKey keys (c.source, c.unit))) := by
  rw [run_idFor, lookup_issuedFor]
  by_cases hmem : (c.source, c.unit) ∈ keys
  · simp [withKey, hmem]
  · have hidx : (keys ++ [(c.source, c.unit)]).idxOf (c.source, c.unit) = keys.length := by
      simp [List.idxOf_append_of_notMem hmem]
    simp [withKey, hmem, idIn, hidx, issuedFor, List.zipIdx_append]

def Interpolation.setting (i : Interpolation) : List Node :=
  .call i.node [] :: if i.unit.isEmpty then [] else [.quoted i.unit]

def settings (l : List Interpolation) : Entries (List Node) :=
  l.foldl (fun vars i => vars.set i.id i.setting) []

theorem settings_concat (l : List Interpolation) (i : Interpolation) :
    settings (l ++ [i]) = (settings l).set i.id i.setting := by
  simp [settings]

theorem keys_settings (l : List Interpolation) :
    (settings l).map (·.1) = (l.map (·.id)).eraseDups := by
  induction l using List.reverseRecOn with
  | nil => rfl
  | append_singleton l i ih =>
      rw [settings_concat, Entries.keys_set, ih, List.map_append, List.map_singleton,
        eraseDups_concat]
      simp only [List.mem_eraseDups]

theorem nodup_keys_settings (l : List Interpolation) : ((settings l).map (·.1)).Nodup := by
  rw [keys_settings]
  exact nodup_eraseDups _

theorem get?_settings (l : List Interpolation) (id : String) :
    (settings l).get? id = (l.filter (·.id = id)).getLast?.map Interpolation.setting := by
  induction l using List.reverseRecOn with
  | nil => rfl
  | append_singleton l i ih =>
      rw [settings_concat, List.filter_append, List.getLast?_append]
      by_cases hid : i.id = id
      · simp [hid]
      · rw [Entries.get?_set_of_ne (Ne.symm hid), ih]
        simp [hid]

theorem exists_setting {l : List Interpolation} {i : Interpolation} (h : i ∈ l) :
    ∃ j ∈ l, j.id = i.id ∧ (settings l).get? i.id = some j.setting := by
  have hmem : i ∈ l.filter (·.id = i.id) := List.mem_filter.2 ⟨h, by simp⟩
  obtain ⟨j, hj⟩ := Option.isSome_iff_exists.1 (List.getLast?_isSome.2 (List.ne_nil_of_mem hmem))
  obtain ⟨hjl, hid⟩ := List.mem_filter.1 (List.mem_of_getLast? hj)
  exact ⟨j, hjl, by simpa using hid, by rw [get?_settings, hj, Option.map_some]⟩

end CssExtract.Styled
