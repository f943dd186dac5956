import CssExtract.Package.Manifest
import CssExtract.Proofs.ResolutionOrder

namespace CssExtract

section Searching

variable {ε α : Type} {f : α → Except ε Bool} {l : List α} {a : α} {e : ε} {r : Except ε (Option α)}

/-- A search that does not run through is settled by the first item that is not passed over. -/
theorem findM?_eq_iff (hr : r ≠ .ok none) : l.findM? f = r ↔
    ∃ before a after, l = before ++ a :: after ∧ (∀ b ∈ before, f b = .ok false) ∧
      (f a).map (fun found => if found then some a else none) = r := by
  induction l with
  | nil => simpa [pure, Except.pure] using hr.symm
  | cons b l ih =>
      have hpassed (hb : f b = .ok false) : (b :: l).findM? f = l.findM? f := by
        rw [List.findM?, hb]
        rfl
      have hsettled (hb : f b ≠ .ok false) :
          (b :: l).findM? f = (f b).map fun found => if found then some b else none := by
        rw [List.findM?]
        rcases hfb : f b with _ | _ | _
        · rfl
        · exact absurd hfb hb
        · rfl
      constructor
      · intro h
        by_cases hb : f b = .ok false
        · obtain ⟨before, a, after, rfl, hbefore, ha⟩ := ih.1 (hpassed hb ▸ h)
          exact ⟨b :: before, a, after, rfl, List.forall_mem_cons.2 ⟨hb, hbefore⟩, ha⟩
        · exact ⟨[], b, l, rfl, by simp, hsettled hb ▸ h⟩
      · rintro ⟨before, a, after, hsplit, hbefore, ha⟩
        cases before with
        | nil =>
            obtain ⟨rfl, rfl⟩ := List.cons.inj hsplit
            rw [hsettled, ha]
            intro hb
            exact hr (by rw [← ha, hb]; rfl)
        | cons c before =>
            obtain ⟨rfl, rfl⟩ := List.cons.inj hsplit
            obtain ⟨hb, hbefore⟩ := List.forall_mem_cons.1 hbefore
            rw [hpassed hb]
            exact ih.2 ⟨before, a, after, rfl, hbefore, ha⟩

theorem findM?_eq_some_iff : l.findM? f = .ok (some a) ↔
    ∃ before after, l = before ++ a :: after ∧ (∀ b ∈ before, f b = .ok false) ∧ f a = .ok true := by
  have hone (b : α) : (f b).map (fun found => if found then some b else none) = .ok (some a) ↔
      b = a ∧ f b = .ok true := by
    rcases f b with _ | _ | _ <;> simp [Except.map]
  simp only [findM?_eq_iff (show Except.ok (some a) ≠ .ok none by simp), hone]
  constructor
  · rintro ⟨before, b, after, hsplit, hbefore, rfl, hb⟩
    exact ⟨before, after, hsplit, hbefore, hb⟩
  · rintro ⟨before, after, hsplit, hbefore, ha⟩
    exact ⟨before, a, after, hsplit, hbefore, rfl, ha⟩

theorem findM?_eq_error_iff : l.findM? f = .error e ↔
    ∃ before a after, l = before ++ a :: after ∧ (∀ b ∈ before, f b = .ok false) ∧ f a = .error e := by
  have hone (b : α) : (f b).map (fun found => if found then some b else none) = .error e ↔ f b = .error e := by
    rcases f b with _ | _ | _ <;> simp [Except.map]
  simp only [findM?_eq_iff (show Except.error e ≠ .ok none by simp), hone]

end Searching

namespace Path

variable {p directory start : Path} {P : Path → Prop}

def Above (directory p : Path) : Prop := directory.anchor = p.anchor ∧ directory.parts <+: p.parts

theorem above_iff_of_root (h : p.parts = []) : Above directory p ↔ directory = p := by
  obtain ⟨anchor, parts⟩ := p
  obtain ⟨anchor', parts'⟩ := directory
  obtain rfl : parts = [] := h
  simp [Above, List.prefix_nil]

theorem above_iff (h : p.parts ≠ []) : Above directory p ↔ directory = p ∨ Above directory p.parent := by
  obtain ⟨anchor, parts⟩ := p
  obtain ⟨anchor', parts'⟩ := directory
  obtain ⟨parts, part, rfl⟩ : ∃ above part, parts = above ++ [part] :=
    ⟨_, _, (List.dropLast_append_getLast h).symm⟩
  simp [Above, parent, List.prefix_concat_iff, and_or_left]

/-- The paths above a path are walked from the nearest on. -/
theorem ancestors_split_iff : (∃ near far, start.ancestors = near ++ directory :: far ∧ ∀ d ∈ near, P d) ↔
    Above directory start ∧
      ∀ other, Above other start → directory.parts.length < other.parts.length → P other := by
  induction hn : start.parts.length generalizing start with
  | zero =>
      have hroot := List.length_eq_zero_iff.1 hn
      simp only [ancestors_of_root hroot, above_iff_of_root hroot]
      constructor
      · rintro ⟨near, far, hsplit, -⟩
        obtain ⟨rfl, hrest⟩ := List.append_eq_singleton_iff.1 hsplit.symm |>.resolve_right (by simp)
        obtain ⟨rfl, -⟩ := List.cons.inj hrest
        exact ⟨rfl, fun other hother hlt => by simp [hother] at hlt⟩
      · rintro ⟨rfl, -⟩
        exact ⟨[], [], rfl, by simp⟩
  | succ n ih =>
      have hparts : start.parts ≠ [] := by
        intro hnil
        simp [hnil] at hn
      have hparent : start.parent.parts.length = n := by simp [parent, hn]
      have hshort {d : Path} (h : Above d start.parent) : d.parts.length ≤ n :=
        hparent ▸ h.2.length_le
      simp only [ancestors_eq hparts, above_iff hparts]
      constructor
      · rintro ⟨near, far, hsplit, hnear⟩
        cases near with
        | nil =>
            obtain ⟨rfl, -⟩ := List.cons.inj hsplit
            refine ⟨.inl rfl, ?_⟩
            rintro other (rfl | hother) hlt
            · omega
            · have := hshort hother
              omega
        | cons d near =>
            obtain ⟨rfl, hrest⟩ := List.cons.inj hsplit
            obtain ⟨hd, hnear⟩ := List.forall_mem_cons.1 hnear
            obtain ⟨habove, hothers⟩ := (ih hparent).1 ⟨near, far, hrest, hnear⟩
            refine ⟨.inr habove, ?_⟩
            rintro other (rfl | hother) hlt
            · exact hd
            · exact hothers other hother hlt
      · rintro ⟨rfl | habove, hothers⟩
        · exact ⟨[], _, rfl, by simp⟩
        · obtain ⟨near, far, hsplit, hnear⟩ :=
            (ih hparent).2 ⟨habove, fun other hother => hothers other (.inr hother)⟩
          have hlength := hshort habove
          refine ⟨start :: near, far, by rw [hsplit]; rfl, List.forall_mem_cons.2 ⟨?_, hnear⟩⟩
          exact hothers start (.inl rfl) (by omega)

end Path

namespace Package

variable {t : Tree} {p start manifest : Path} {fault : Tree.Fault}

inductive StartsAt (t : Tree) (p : Path) : Path → Prop
  | directory {place : Path} (leads : t.resolve p = .ok place) (kind : t.isDirectory place = .ok true) :
      StartsAt t p place
  | file {place : Path} (leads : t.resolve p = .ok place) (kind : t.isDirectory place = .ok false) :
      StartsAt t p place.parent

/-- No directory at a path or above it has a manifest that is nearer than the one of a directory. -/
def NoneNearer (t : Tree) (start directory : Path) : Prop :=
  ∀ other, Path.Above other start → directory.parts.length < other.parts.length →
    t.isFile (other.child "package.json") = .ok false

/-- Of the manifests at a path and above it, the nearest. -/
inductive Nearest (t : Tree) (p : Path) : Path → Prop
  | intro {start directory : Path} (starts : StartsAt t p start) (above : Path.Above directory start)
      (nearer : NoneNearer t start directory) (isFile : t.isFile (directory.child "package.json") = .ok true) :
      Nearest t p (directory.child "package.json")

/-- The system does not answer on the way to the nearest manifest. -/
inductive SearchRefused (t : Tree) (p : Path) : Tree.Fault → Prop
  | path {fault : Tree.Fault} (refused : t.resolve p = .error fault) : SearchRefused t p fault
  | kind {place : Path} {fault : Tree.Fault} (leads : t.resolve p = .ok place)
      (refused : t.isDirectory place = .error fault) : SearchRefused t p fault
  | manifest {start directory : Path} {fault : Tree.Fault} (starts : StartsAt t p start)
      (above : Path.Above directory start) (nearer : NoneNearer t start directory)
      (refused : t.isFile (directory.child "package.json") = .error fault) : SearchRefused t p fault

theorem findUp?_of_startsAt (h : StartsAt t p start) : findUp? t p manifestName =
    (start.ancestors.map (·.child manifestName)).findM? t.isFile := by
  cases h with
  | directory leads kind => simp only [findUp?, leads, kind, bind, Except.bind, if_true]
  | file leads kind => simp only [findUp?, leads, kind, bind, Except.bind, Bool.false_eq_true, if_false]

theorem startsAt_or_refused (t : Tree) (p : Path) :
    (∃ start, StartsAt t p start) ∨ ∃ fault, SearchRefused t p fault := by
  cases hleads : t.resolve p with
  | error fault => exact .inr ⟨fault, .path hleads⟩
  | ok place =>
      rcases hkind : t.isDirectory place with fault | _ | _
      · exact .inr ⟨fault, .kind hleads hkind⟩
      · exact .inl ⟨_, .file hleads hkind⟩
      · exact .inl ⟨_, .directory hleads hkind⟩

theorem manifests_split_iff (t : Tree) (start : Path) (Q : Path → Prop) :
    (∃ before manifest after, start.ancestors.map (·.child manifestName) = before ++ manifest :: after ∧
        (∀ other ∈ before, t.isFile other = .ok false) ∧ Q manifest) ↔
      ∃ directory, Path.Above directory start ∧ NoneNearer t start directory ∧
        Q (directory.child "package.json") := by
  constructor
  · rintro ⟨before, manifest, after, hsplit, hbefore, hq⟩
    obtain ⟨near, rest, hplaces, rfl, hrest⟩ := List.map_eq_append_iff.1 hsplit
    obtain ⟨directory, far, rfl, rfl, rfl⟩ := List.map_eq_cons_iff.1 hrest
    obtain ⟨habove, hnearer⟩ := Path.ancestors_split_iff.1
      ⟨near, far, hplaces, fun other hmem => hbefore _ (List.mem_map_of_mem hmem)⟩
    exact ⟨directory, habove, hnearer, hq⟩
  · rintro ⟨directory, habove, hnearer, hq⟩
    obtain ⟨near, far, hplaces, hnear⟩ := Path.ancestors_split_iff.2 ⟨habove, hnearer⟩
    refine ⟨near.map (·.child manifestName), _, far.map (·.child manifestName), ?_, ?_, hq⟩
    · rw [hplaces, List.map_append, List.map_cons]
      rfl
    · exact List.forall_mem_map.2 hnear

theorem Nearest.findUp? (h : Nearest t p manifest) : findUp? t p manifestName = .ok (some manifest) := by
  obtain @⟨start, directory, starts, above, nearer, isFile⟩ := h
  obtain ⟨before, manifest, after, hsplit, hbefore, rfl, hfile⟩ :=
    (manifests_split_iff t start fun manifest =>
      manifest = directory.child "package.json" ∧ t.isFile manifest = .ok true).2
        ⟨directory, above, nearer, rfl, isFile⟩
  rw [findUp?_of_startsAt starts]
  exact findM?_eq_some_iff.2 ⟨before, after, hsplit, hbefore, hfile⟩

theorem SearchRefused.findUp? (h : SearchRefused t p fault) : findUp? t p manifestName = .error fault := by
  cases h with
  | path refused => simp only [Package.findUp?, refused, bind, Except.bind]
  | kind leads refused => simp only [Package.findUp?, leads, refused, bind, Except.bind]
  | manifest starts above nearer refused =>
      rw [findUp?_of_startsAt starts]
      exact findM?_eq_error_iff.2 ((manifests_split_iff t _ _).2 ⟨_, above, nearer, refused⟩)

theorem findUp?_eq_some_iff : findUp? t p manifestName = .ok (some manifest) ↔ Nearest t p manifest := by
  refine ⟨fun h => ?_, Nearest.findUp?⟩
  obtain ⟨start, hstart⟩ | ⟨fault, hrefused⟩ := startsAt_or_refused t p
  · rw [findUp?_of_startsAt hstart, findM?_eq_some_iff] at h
    obtain ⟨before, after, hsplit, hbefore, hfile⟩ := h
    obtain ⟨directory, habove, hnearer, rfl, hfile⟩ :=
      (manifests_split_iff t start fun other => other = manifest ∧ t.isFile other = .ok true).1
        ⟨before, manifest, after, hsplit, hbefore, rfl, hfile⟩
    exact .intro hstart habove hnearer hfile
  · simp [hrefused.findUp?] at h

theorem Nearest.unique {manifest' : Path} (h : Nearest t p manifest) (h' : Nearest t p manifest') :
    manifest = manifest' := by
  simpa using h.findUp?.symm.trans h'.findUp?

theorem findUp?_eq_error_iff : findUp? t p manifestName = .error fault ↔ SearchRefused t p fault := by
  refine ⟨fun h => ?_, SearchRefused.findUp?⟩
  obtain ⟨start, hstart⟩ | ⟨fault', hrefused⟩ := startsAt_or_refused t p
  · rw [findUp?_of_startsAt hstart, findM?_eq_error_iff, manifests_split_iff] at h
    obtain ⟨directory, habove, hnearer, hfile⟩ := h
    exact .manifest hstart habove hnearer hfile
  · obtain rfl := Except.error.inj (hrefused.findUp?.symm.trans h)
    exact hrefused

end Package

end CssExtract
