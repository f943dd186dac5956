import CssExtract.Files.Tree
import Mathlib.Data.List.Perm.Subperm
import Mathlib.Tactic.SplitIfs

namespace CssExtract.Tree

variable {t : Tree} {here mid place place' : Place} {part : String} {parts rest : List String}
  {entry : Entry} {links n n' : Nat} {hides : Place → Bool}

/-- Neither the place nor what is above it is a link, or anything else than a directory. -/
structure Open (t : Tree) (place : Place) : Prop where
  up : ".." ∉ place
  directories : ∀ above, above <+: place → above ≠ [] → t.at? above = some .directory

theorem open_root (t : Tree) : Open t [] where
  up := List.not_mem_nil
  directories _ h hne := absurd (List.prefix_nil.1 h) hne

theorem Open.of_prefix (h : Open t place) (hhere : here <+: place) : Open t here where
  up hup := h.up (hhere.subset hup)
  directories above habove := h.directories above (habove.trans hhere)

theorem Open.dropLast (h : Open t here) : Open t here.dropLast := h.of_prefix (List.dropLast_prefix here)

theorem Open.enter (h : Open t here) (hpart : part ≠ "..") (hdir : t.at? (here ++ [part]) = some .directory) :
    Open t (here ++ [part]) where
  up := by simp [h.up, Ne.symm hpart]
  directories above habove hne := by
    rcases List.prefix_concat_iff.1 habove with rfl | habove
    · exact hdir
    · exact h.directories above habove hne

theorem Open.linkBase (h : Open t here) (target : Path) : Open t (linkBase here target) := by
  rw [Tree.linkBase]
  split_ifs
  · exact open_root t
  · exact h

variable {follow : Place → List String → Option (Place × Entry)}

inductive WalkStep (t : Tree) (follow : Place → List String → Option (Place × Entry)) (here : Place)
    (part : String) (rest : List String) (place : Place) (entry : Entry) : Prop
  | up (hpart : part = "..") (h : t.walkParts follow here.dropLast rest = some (place, entry))
  | enter (hpart : part ≠ "..") (hdir : t.at? (here ++ [part]) = some .directory)
      (h : t.walkParts follow (here ++ [part]) rest = some (place, entry))
  | file {content : List UInt8} (hpart : part ≠ "..") (hfile : t.at? (here ++ [part]) = some (.file content))
      (hrest : rest = []) (hplace : place = here ++ [part]) (hentry : entry = .file content)
  | link {target : String} (hpart : part ≠ "..") (hlink : t.at? (here ++ [part]) = some (.link target))
      (h : follow (linkBase here (Path.ofString target)) ((Path.ofString target).parts ++ rest) =
        some (place, entry))

theorem walkStep_of_walkParts (h : t.walkParts follow here (part :: rest) = some (place, entry)) :
    WalkStep t follow here part rest place entry := by
  simp only [walkParts] at h
  split at h
  · exact .up ‹_› h
  · split at h
    · simp at h
    · exact .enter ‹_› ‹_› h
    · split_ifs at h with hrest
      obtain ⟨rfl, rfl⟩ := Prod.mk.inj (Option.some.inj h)
      exact .file ‹_› ‹_› (List.isEmpty_iff.1 hrest) rfl rfl
    · exact .link ‹_› ‹_› h

/-- A walk ends in an open directory, or at a file in one. -/
inductive Arrives (t : Tree) : Place → Entry → Prop
  | directory {here : Place} {entry : Entry} (h : Open t here) (hentry : t.at? here = some entry) :
      Arrives t here entry
  | file {here : Place} {part : String} {content : List UInt8} (h : Open t here) (hpart : part ≠ "..")
      (hfile : t.at? (here ++ [part]) = some (.file content)) : Arrives t (here ++ [part]) (.file content)

theorem arrives_of_walkParts (hfollow : ∀ {here parts}, Open t here →
      follow here parts = some (place, entry) → Arrives t place entry)
    (hopen : Open t here) (h : t.walkParts follow here parts = some (place, entry)) :
    Arrives t place entry := by
  induction parts generalizing here with
  | nil =>
      obtain ⟨entry, hentry, hsame⟩ := Option.map_eq_some_iff.1 h
      obtain ⟨rfl, rfl⟩ := Prod.mk.inj hsame
      exact .directory hopen hentry
  | cons part rest ih =>
      cases walkStep_of_walkParts h with
      | up _ h => exact ih hopen.dropLast h
      | enter hpart hdir h => exact ih (hopen.enter hpart hdir) h
      | file hpart hfile _ hplace hentry =>
          rw [hplace, hentry]
          exact .file hopen hpart hfile
      | link _ _ h => exact hfollow (hopen.linkBase _) h

theorem arrives_of_walk (hopen : Open t here) (h : t.walk n here parts = some (place, entry)) :
    Arrives t place entry := by
  induction n generalizing here parts with
  | zero => exact arrives_of_walkParts (by simp) hopen h
  | succ n ih => exact arrives_of_walkParts ih hopen h

theorem walkParts_open (h : Open t (here ++ parts)) (rest : List String) :
    t.walkParts follow here (parts ++ rest) = t.walkParts follow (here ++ parts) rest := by
  induction parts generalizing here with
  | nil => simp
  | cons part parts ih =>
      have hpart : part ≠ ".." := by
        rintro rfl
        exact h.up (by simp)
      have hdir := h.directories (here ++ [part]) ⟨parts, by simp⟩ (by simp)
      have hsplit : here ++ part :: parts = here ++ [part] ++ parts := List.append_cons here part parts
      rw [hsplit] at h ⊢
      simp only [List.cons_append, walkParts, if_neg hpart, hdir]
      exact ih h

theorem walkParts_root (h : Open t place) (rest : List String) :
    t.walkParts follow [] (place ++ rest) = t.walkParts follow place rest :=
  walkParts_open h rest

theorem linkAt?_eq_some_iff {target : String} :
    t.linkAt? hides place = some target ↔ hides place = false ∧ t.at? place = some (.link target) := by
  rw [linkAt?]
  split_ifs with hhidden
  · simp [hhidden]
  · split <;> simp_all

theorem linkAt?_eq_none (h : ∀ target, t.at? place ≠ some (.link target)) : t.linkAt? hides place = none :=
  Option.eq_none_iff_forall_ne_some.2 fun target htarget => h target (linkAt?_eq_some_iff.1 htarget).2

theorem resolveParts_open {follow : Place → Path → Except Place Place} (h : Open t (here ++ parts))
    (rest : List String) :
    t.resolveParts hides follow here (parts ++ rest) =
      t.resolveParts hides follow (here ++ parts) rest := by
  induction parts generalizing here with
  | nil => simp
  | cons part parts ih =>
      have hpart : part ≠ ".." := by
        rintro rfl
        exact h.up (by simp)
      have hdir := h.directories (here ++ [part]) ⟨parts, by simp⟩ (by simp)
      have hsplit : here ++ part :: parts = here ++ [part] ++ parts := List.append_cons here part parts
      have hlink : t.linkAt? hides (here ++ [part]) = none := linkAt?_eq_none (by simp [hdir])
      rw [hsplit] at h ⊢
      simp only [List.cons_append, resolveParts, if_neg hpart, hlink]
      exact ih h

theorem resolveParts_root {follow : Place → Path → Except Place Place} (h : Open t place)
    (rest : List String) :
    t.resolveParts hides follow [] (place ++ rest) = t.resolveParts hides follow place rest :=
  resolveParts_open h rest

theorem Arrives.find? (h : Arrives t place entry) : t.find? ⟨"/", place⟩ = some (place, entry) := by
  have hwalk (place : Place) : t.find? ⟨"/", place⟩ = t.walk maxLinks [] place := rfl
  rw [hwalk, maxLinks, walk]
  cases h with
  | directory hopen hentry =>
      have hparts : t.walkParts (walk t 39) [] (place ++ []) = _ := walkParts_root hopen []
      rw [List.append_nil] at hparts
      rw [hparts, walkParts, hentry, Option.map_some]
  | file hopen hpart hfile =>
      rw [walkParts_root hopen]
      simp [walkParts, hpart, hfile]

theorem Arrives.realPath (h : Arrives t place entry) (hides : Place → Bool) :
    t.realPath hides ⟨"/", place⟩ = ⟨"/", place⟩ := by
  have habsolute (place : Place) : t.absolute ⟨"/", place⟩ = place := rfl
  have hresolve : t.resolveParts hides (t.followLink hides (t.entries.length + 1) []) [] place =
      .ok place := by
    cases h with
    | directory hopen hentry =>
        have hparts : t.resolveParts hides (t.followLink hides (t.entries.length + 1) []) []
            (place ++ []) = _ := resolveParts_root hopen []
        rwa [List.append_nil, Tree.resolveParts] at hparts
    | file hopen hpart hfile =>
        rw [resolveParts_root hopen]
        simp [resolveParts, hpart, linkAt?_eq_none, hfile]
  rw [Tree.realPath, habsolute, hresolve]

theorem Arrives.resolve (h : Arrives t place entry) :
    t.resolve ⟨"/", place⟩ = .ok ⟨"/", place⟩ := by
  simp [Tree.resolve, h.find?, h.realPath]

/-- Where components lead from a place, and how many links are followed, counting those on the way to
what a link leads to. -/
inductive Leads (t : Tree) : Place → List String → Place → Nat → Prop
  | here (here : Place) : Leads t here [] here 0
  | up {here place : Place} {rest : List String} {n : Nat} (h : Leads t here.dropLast rest place n) :
      Leads t here (".." :: rest) place n
  | step {here place : Place} {part : String} {rest : List String} {n : Nat} (hpart : part ≠ "..")
      (hlink : ∀ target, t.at? (here ++ [part]) ≠ some (.link target))
      (h : Leads t (here ++ [part]) rest place n) : Leads t here (part :: rest) place n
  | link {here mid place : Place} {part target : String} {rest : List String} {n n' : Nat}
      (hpart : part ≠ "..") (hlink : t.at? (here ++ [part]) = some (.link target))
      (h : Leads t (linkBase here (Path.ofString target)) (Path.ofString target).parts mid n)
      (h' : Leads t mid rest place n') : Leads t here (part :: rest) place (n + n' + 1)

theorem Leads.unique (h : Leads t here parts place n) (h' : Leads t here parts place' n') :
    place = place' ∧ n = n' := by
  induction h generalizing place' n' with
  | here => cases h'; exact ⟨rfl, rfl⟩
  | up _ ih =>
      cases h' with
      | up h' => exact ih h'
      | step hpart | link hpart => exact absurd rfl hpart
  | step hpart hlink _ ih =>
      cases h' with
      | up => exact absurd rfl hpart
      | step _ _ h' => exact ih h'
      | link _ hlink' => exact absurd hlink' (hlink _)
  | link hpart hlink _ _ ih ih' =>
      cases h' with
      | up => exact absurd rfl hpart
      | step _ hlink' => exact absurd hlink (hlink' _)
      | link _ hlink' h h' =>
          obtain rfl := Entry.link.inj (Option.some.inj (hlink.symm.trans hlink'))
          obtain ⟨rfl, rfl⟩ := ih h
          obtain ⟨rfl, rfl⟩ := ih' h'
          exact ⟨rfl, rfl⟩

theorem Leads.split (h : Leads t here (parts ++ rest) place n) :
    ∃ mid m m', Leads t here parts mid m ∧ Leads t mid rest place m' ∧ n = m + m' := by
  induction parts generalizing here n with
  | nil => exact ⟨here, 0, n, .here _, h, (Nat.zero_add n).symm⟩
  | cons part parts ih =>
      cases h with
      | up h =>
          obtain ⟨mid, m, m', hm, hm', rfl⟩ := ih h
          exact ⟨mid, m, m', .up hm, hm', rfl⟩
      | step hpart hlink h =>
          obtain ⟨mid, m, m', hm, hm', rfl⟩ := ih h
          exact ⟨mid, m, m', .step hpart hlink hm, hm', rfl⟩
      | link hpart hlink h h' =>
          obtain ⟨mid, m, m', hm, hm', rfl⟩ := ih h'
          exact ⟨mid, _, m', .link hpart hlink h hm, hm', by omega⟩

theorem leads_of_walkParts (hfollow : ∀ {here parts}, follow here parts = some (place, entry) →
      ∃ n, Leads t here parts place n)
    (h : t.walkParts follow here parts = some (place, entry)) : ∃ n, Leads t here parts place n := by
  induction parts generalizing here with
  | nil =>
      obtain ⟨entry, -, hsame⟩ := Option.map_eq_some_iff.1 h
      obtain ⟨rfl, -⟩ := Prod.mk.inj hsame
      exact ⟨0, .here _⟩
  | cons part rest ih =>
      cases walkStep_of_walkParts h with
      | up hpart h =>
          subst hpart
          obtain ⟨n, hn⟩ := ih h
          exact ⟨n, .up hn⟩
      | enter hpart hdir h =>
          obtain ⟨n, hn⟩ := ih h
          exact ⟨n, .step hpart (by simp [hdir]) hn⟩
      | file hpart hfile hrest hplace =>
          subst hrest hplace
          exact ⟨0, .step hpart (by simp [hfile]) (.here _)⟩
      | link hpart hlink h =>
          obtain ⟨n, hn⟩ := hfollow h
          obtain ⟨mid, m, m', hm, hm', -⟩ := hn.split
          exact ⟨_, .link hpart hlink hm hm'⟩

theorem leads_of_walk (h : t.walk links here parts = some (place, entry)) :
    ∃ n, Leads t here parts place n := by
  induction links generalizing here parts with
  | zero => exact leads_of_walkParts (by simp) h
  | succ links ih => exact leads_of_walkParts ih h

/-- The links that are being followed: following any of them takes more links than are left to follow. -/
structure Pending (t : Tree) (seen : List Place) (n : Nat) : Prop where
  nodup : seen.Nodup
  leads : ∀ link ∈ seen, ∃ target mid m, t.at? link = some (.link target) ∧
    Leads t (linkBase link.dropLast (Path.ofString target)) (Path.ofString target).parts mid m ∧ n ≤ m

theorem mem_entries_of_link {target : String} (h : t.at? place = some (.link target)) :
    place ∈ t.entries.map (·.1) := by
  simp only [at?] at h
  split at h
  · rename_i place' entry hfind
    have hplace : place' = place := by simpa using List.find?_some hfind
    exact List.mem_map.2 ⟨_, List.mem_of_find?_eq_some hfind, hplace⟩
  · split at h <;> simp at h

theorem Pending.mono {seen : List Place} (h : Pending t seen n) (hle : n' ≤ n) : Pending t seen n' where
  nodup := h.nodup
  leads link hmem := by
    obtain ⟨target, mid, m, hlink, hleads, hm⟩ := h.leads link hmem
    exact ⟨target, mid, m, hlink, hleads, Nat.le_trans hle hm⟩

theorem Pending.length_le {seen : List Place} (h : Pending t seen n) : seen.length ≤ t.entries.length := by
  have hsubset : seen ⊆ t.entries.map (·.1) := by
    intro link hmem
    obtain ⟨_, _, _, hlink, -⟩ := h.leads link hmem
    exact mem_entries_of_link hlink
  simpa using (h.nodup.subperm hsubset).length_le

/-- A link that is met is none of those that are being followed, as there would be no end to it. -/
theorem Pending.cons {seen : List Place} {link : Place} {target : String} (h : Pending t seen n)
    (hlink : t.at? link = some (.link target))
    (hleads : Leads t (linkBase link.dropLast (Path.ofString target)) (Path.ofString target).parts mid n')
    (hlt : n' < n) : link ∉ seen ∧ Pending t (link :: seen) n' := by
  have hnew : link ∉ seen := by
    intro hmem
    obtain ⟨target', mid', m, hlink', hleads', hm⟩ := h.leads link hmem
    obtain rfl := Entry.link.inj (Option.some.inj (hlink.symm.trans hlink'))
    obtain ⟨-, rfl⟩ := hleads.unique hleads'
    omega
  refine ⟨hnew, List.nodup_cons.2 ⟨hnew, h.nodup⟩, List.forall_mem_cons.2 ⟨?_, ?_⟩⟩
  · exact ⟨target, mid, n', hlink, hleads, Nat.le_refl n'⟩
  · exact (h.mono (Nat.le_of_lt hlt)).leads

/-- The number of links is enough to follow any of them to its end. -/
theorem Leads.resolveParts (h : Leads t here parts place n) {depth : Nat} {seen : List Place}
    (hpending : Pending t seen n) (hdepth : t.entries.length < depth + seen.length) :
    t.resolveParts (fun _ => false) (t.followLink (fun _ => false) depth seen) here parts = .ok place := by
  induction h generalizing depth seen with
  | here => rfl
  | up _ ih =>
      rw [Tree.resolveParts, if_pos rfl]
      exact ih hpending hdepth
  | @step here place part rest n hpart hlink _ ih =>
      rw [Tree.resolveParts, if_neg hpart, linkAt?_eq_none hlink]
      exact ih hpending hdepth
  | @link here mid place part target rest n n' hpart hlink h _ ih ih' =>
      have hdrop : (here ++ [part]).dropLast = here := List.dropLast_concat
      obtain ⟨hnew, hfollow⟩ := hpending.cons hlink (by rwa [hdrop]) (by omega)
      have hle := hfollow.length_le
      rw [List.length_cons] at hle
      obtain ⟨depth, rfl⟩ : ∃ k, depth = k + 1 := ⟨depth - 1, by omega⟩
      have hdepth' : t.entries.length < depth + ((here ++ [part]) :: seen).length := by
        rw [List.length_cons]
        omega
      have hmid := ih hfollow hdepth'
      rw [Tree.resolveParts, if_neg hpart, linkAt?_eq_some_iff.2 ⟨rfl, hlink⟩]
      simp only [followLink, if_neg hnew, hdrop, hmid]
      exact ih' (hpending.mono (by omega)) hdepth

theorem hidden_eq {p : Path} (h : t.find? p = some (place, entry)) (hdenied : t.access.refusal? p ≠ some .denied) :
    t.hidden p = fun _ => false := by
  simp [hidden, h, hdenied]

/-- The system answers about a path that leads somewhere: it resolves to the place that it leads to. -/
theorem resolve_of_find? {p : Path} (h : t.find? p = some (place, entry))
    (hdenied : t.access.refusal? p ≠ some .denied) : t.resolve p = .ok ⟨"/", place⟩ := by
  obtain ⟨n, hleads⟩ := leads_of_walk h
  have hnone : Pending t [] n := ⟨.nil, by simp⟩
  have hdepth : t.entries.length < t.entries.length + 1 + ([] : List Place).length := by simp
  have hparts := hleads.resolveParts hnone hdepth
  simp only [resolve, hidden_eq h hdenied, realPath, hparts, h, Option.isSome_some, if_true]

theorem isFile_eq_ok_iff {p : Path} {b : Bool} :
    t.isFile p = .ok b ↔ t.access.refusal? p ≠ some .denied ∧ t.holdsFile p = b := by
  rw [isFile, answered]
  split_ifs with hdenied <;> simp [hdenied]

theorem isFile_eq_error_iff {p : Path} {fault : Fault} :
    t.isFile p = .error fault ↔ t.access.refusal? p = some .denied ∧ fault = .denied := by
  rw [isFile, answered]
  split_ifs with hdenied <;> simp [hdenied, eq_comm]

theorem isDirectory_eq_ok_iff {p : Path} {b : Bool} :
    t.isDirectory p = .ok b ↔ t.access.refusal? p ≠ some .denied ∧ t.holdsDirectory p = b := by
  rw [isDirectory, answered]
  split_ifs with hdenied <;> simp [hdenied]

theorem holdsFile_of_holdsDirectory {p : Path} (h : t.holdsDirectory p = true) : t.holdsFile p = false := by
  rw [holdsDirectory] at h
  split at h
  · rename_i place hfind
    rw [holdsFile, hfind]
  · simp at h

theorem resolve_of_isFile {p : Path} (h : t.isFile p = .ok true) : ∃ file, t.resolve p = .ok file ∧
    file.isAbsolute = true ∧ t.holdsFile file = true ∧ t.resolve file = .ok file := by
  obtain ⟨hdenied, hfile⟩ := isFile_eq_ok_iff.1 h
  rw [holdsFile] at hfile
  split at hfile
  · rename_i place content hfind
    have harrives := arrives_of_walk (open_root t) hfind
    refine ⟨_, resolve_of_find? hfind hdenied, rfl, ?_, harrives.resolve⟩
    rw [holdsFile, harrives.find?]
  · simp at hfile

end CssExtract.Tree
