import CssExtract.Proofs.ManifestSearch
import CssExtract.Proofs.MaskScope

namespace CssExtract

open Text

theorem Path.isAbsolute_ofChars {s : List Char} : (ofChars s).isAbsolute = true ↔ s.head? = some '/' := by
  cases s with
  | nil => decide
  | cons c s =>
      by_cases hc : c = '/'
      · simp only [ofChars, isAbsolute, hc]
        split_ifs with hzero
        · simp at hzero
        · exact ⟨fun _ => rfl, fun _ => rfl⟩
        · exact ⟨fun _ => rfl, fun _ => rfl⟩
      · simp [ofChars, isAbsolute, hc]

namespace Package

variable {here parts there : List String} {text : List Char} {root directory mask file pattern : String}
  {t : Tree} {p manifest : Path}

def slashed (s : String) : List Char := s.toList.map fun c => if c = '\\' then '/' else c

def written (text : List Char) : List String := (splitOn '/' text).map String.ofList

/-- Where components lead from a directory if there are no links. From the root `..` leads nowhere. -/
inductive Follows : List String → List String → List String → Prop
  | done (here : List String) : Follows here [] here
  | stay {here rest there : List String} {part : String} (h : part = "" ∨ part = ".")
      (further : Follows here rest there) : Follows here (part :: rest) there
  | up {here rest there : List String} (further : Follows here.dropLast rest there) :
      Follows here (".." :: rest) there
  | enter {here rest there : List String} {part : String} (h : ¬ (part = "" ∨ part = ".")) (hup : part ≠ "..")
      (further : Follows (here ++ [part]) rest there) : Follows here (part :: rest) there

/-- What a text starts from; exactly two slashes are not the root. -/
inductive Root : List Char → String → Prop
  | double {rest : List Char} (h : rest.head? ≠ some '/') : Root ('/' :: '/' :: rest) "//"
  | single {rest : List Char} (h : ∀ other, rest = '/' :: other → other.head? = some '/') :
      Root ('/' :: rest) "/"

/-- A mask with its directory in front, unless it starts from the root itself. -/
inductive Joined (directory mask : String) : String → Prop
  | below {root : String} {parts : List String} (relative : (slashed mask).head? ≠ some '/')
      (starts : Root (slashed directory) root)
      (follows : Follows [] (written (slashed directory) ++ written (slashed mask)) parts) :
      Joined directory mask (root ++ "/".intercalate parts)
  | alone {root : String} {parts : List String} (starts : Root (slashed mask) root)
      (follows : Follows [] (written (slashed mask)) parts) :
      Joined directory mask (root ++ "/".intercalate parts)

def named (parts : List String) : List String := parts.filter fun part => ¬ (part = "" ∨ part = ".")

theorem named_append (parts parts' : List String) : named (parts ++ parts') = named parts ++ named parts' :=
  List.filter_append parts parts'

theorem parts_ofChars (text : List Char) : (Path.ofChars text).parts = named (written text) := by
  rw [Path.ofChars, named, written, List.filter_map]
  refine congrArg (List.map _) (List.filter_congr fun part _ => ?_)
  have hempty : String.ofList part = "" ↔ part = [] := by
    rw [← String.toList_inj, String.toList_ofList]
    rfl
  have hdot : String.ofList part = "." ↔ part = ['.'] := by
    rw [← String.toList_inj, String.toList_ofList]
    rfl
  simp [hempty, hdot]

theorem push_up (above : List String) (h : ".." ∉ above) : Path.push true above ".." = above.tail := by
  cases above with
  | nil => rfl
  | cons last above =>
      rw [List.mem_cons, not_or] at h
      simp [Path.push, Ne.symm h.1]

theorem push_named {above : List String} {part : String} (h : part ≠ "..") :
    Path.push true above part = part :: above := if_pos h

theorem follows_push (parts above : List String) (h : ".." ∉ above) :
    Follows above.reverse parts ((named parts).foldl (Path.push true) above).reverse := by
  induction parts generalizing above with
  | nil => exact .done _
  | cons part parts ih =>
      by_cases hstay : part = "" ∨ part = "."
      · have hnamed : named (part :: parts) = named parts :=
          List.filter_cons_of_neg (by simpa [or_iff_not_imp_left] using hstay)
        rw [hnamed]
        exact .stay hstay (ih above h)
      · have hnamed : named (part :: parts) = part :: named parts := List.filter_cons_of_pos (by simpa using hstay)
        rw [hnamed, List.foldl_cons]
        by_cases hup : part = ".."
        · subst hup
          rw [push_up above h]
          refine .up ?_
          rw [List.dropLast_reverse]
          exact ih _ fun hmem => h (List.mem_of_mem_tail hmem)
        · rw [push_named hup]
          refine .enter hstay hup ?_
          rw [← List.reverse_cons]
          exact ih _ (by simp [h, Ne.symm hup])

theorem Follows.unique {there' : List String} (h : Follows here parts there) (h' : Follows here parts there') :
    there = there' := by
  induction h with
  | done => cases h'; rfl
  | stay hstay _ ih =>
      cases h' with
      | stay _ further => exact ih further
      | up further => simp at hstay
      | enter hother => exact absurd hstay hother
  | up _ ih =>
      cases h' with
      | stay hstay => simp at hstay
      | up further => exact ih further
      | enter _ hup => exact absurd rfl hup
  | enter hother hup _ ih =>
      cases h' with
      | stay hstay => exact absurd hstay hother
      | up further => exact absurd rfl hup
      | enter _ _ further => exact ih further

theorem follows_iff : Follows [] parts there ↔ there = ((named parts).foldl (Path.push true) []).reverse :=
  have hfollows : Follows [] parts _ := follows_push parts [] List.not_mem_nil
  ⟨fun h => h.unique hfollows, fun h => h ▸ hfollows⟩

theorem Root.anchor_eq (h : Root text root) : (Path.ofChars text).anchor = root := by
  cases h with
  | @double rest h =>
      have hrest : rest.takeWhile (· = '/') = [] := by
        cases rest <;> simp_all
      simp [Path.ofChars, hrest]
  | @single rest h =>
      have hother : ((('/' :: rest).takeWhile (· = '/')).length = 2) → False := by
        rcases rest with _ | ⟨c, rest⟩
        · simp
        · by_cases hc : c = '/'
          · subst hc
            have hhead := h rest rfl
            cases rest <;> simp_all
          · simp [hc]
      simp only [Path.ofChars]
      rw [if_neg (by simp), if_neg hother]

theorem root_anchor (h : text.head? = some '/') : Root text (Path.ofChars text).anchor := by
  obtain ⟨root, hroot⟩ : ∃ root, Root text root := by
    obtain ⟨rest, rfl⟩ := List.head?_eq_some_iff.1 h
    rcases rest with _ | ⟨c, rest⟩
    · exact ⟨_, .single (by simp)⟩
    · by_cases hdouble : c = '/' ∧ rest.head? ≠ some '/'
      · obtain ⟨rfl, hrest⟩ := hdouble
        exact ⟨_, .double hrest⟩
      · refine ⟨_, .single fun other hother => ?_⟩
        obtain ⟨rfl, rfl⟩ := List.cons.inj hother
        simpa using hdouble
  rwa [hroot.anchor_eq]

theorem joined_fullMask (h : (slashed directory).head? = some '/') :
    Joined directory mask (fullMask directory mask) := by
  have hofString (s : String) : Path.ofString (withSlashes s) = Path.ofChars (slashed s) := by
    rw [Path.ofString, toList_withSlashes, slashed]
  have hspelled {root : String} {parts : List String} (hroot : root ≠ "") :
      Path.toString ⟨root, parts⟩ = root ++ "/".intercalate parts :=
    Path.toString_eq (by simpa [Path.isAbsolute] using hroot)
  have hanchor {text : List Char} (htext : text.head? = some '/') : (Path.ofChars text).anchor ≠ "" := by
    simpa [Path.isAbsolute] using Path.isAbsolute_ofChars.2 htext
  rw [fullMask, hofString, hofString, Path.join]
  split_ifs with habsolute
  · have hmask := Path.isAbsolute_ofChars.1 habsolute
    rw [Path.collapse, habsolute, hspelled (hanchor hmask)]
    exact .alone (root_anchor hmask) (follows_iff.2 (by rw [parts_ofChars]))
  · have hrelative := mt Path.isAbsolute_ofChars.2 habsolute
    have hroot : Path.isAbsolute ⟨(Path.ofChars (slashed directory)).anchor,
        (Path.ofChars (slashed directory)).parts ++ (Path.ofChars (slashed mask)).parts⟩ = true :=
      Path.isAbsolute_ofChars.2 h
    rw [Path.collapse, hroot, hspelled (hanchor h)]
    refine .below hrelative (root_anchor h) (follows_iff.2 ?_)
    rw [named_append, parts_ofChars, parts_ofChars]

theorem Joined.unique {pattern' : String} (h : Joined directory mask pattern) (h' : Joined directory mask pattern') :
    pattern = pattern' := by
  have hhead {text : List Char} {root : String} (hroot : Root text root) : text.head? = some '/' := by
    cases hroot <;> rfl
  rcases h with ⟨hrelative, hroot, hfollows⟩ | ⟨hroot, hfollows⟩ <;>
    rcases h' with ⟨hrelative', hroot', hfollows'⟩ | ⟨hroot', hfollows'⟩
  · rw [← hroot.anchor_eq, ← hroot'.anchor_eq, hfollows.unique hfollows']
  · exact absurd (hhead hroot') hrelative
  · exact absurd (hhead hroot) hrelative'
  · rw [← hroot.anchor_eq, ← hroot'.anchor_eq, hfollows.unique hfollows']

/-- A mask is matched as a pattern with its directory in front. -/
theorem matchesMask_eq_iff {globmatch : Glob.Matcher} {r : Except Glob.Fault Bool}
    (h : (slashed directory).head? = some '/') : matchesMask globmatch file directory mask = r ↔
      ∃ pattern, Joined directory mask pattern ∧ globmatch pattern.toList (slashed file) = r := by
  have hmatches : matchesMask globmatch file directory mask =
      globmatch (fullMask directory mask).toList (slashed file) := by
    rw [matchesMask, toList_withSlashes, slashed]
  rw [hmatches]
  constructor
  · exact fun heq => ⟨_, joined_fullMask h, heq⟩
  · rintro ⟨pattern, hjoined, heq⟩
    rwa [(joined_fullMask h).unique hjoined]

theorem resolve_anchor (h : t.resolve p = .ok manifest) : manifest.anchor = "/" := by
  have hreal (hides : Place → Bool) : (t.realPath hides p).anchor = "/" := by
    rw [Tree.realPath]
    split <;> rfl
  simp only [Tree.resolve] at h
  split_ifs at h
  all_goals
    obtain rfl := Except.ok.inj h
    exact hreal _

theorem Nearest.directory_absolute (h : Nearest t p manifest) :
    (slashed manifest.parent.toString).head? = some '/' := by
  obtain @⟨start, directory, starts, above, -, -⟩ := h
  have hstart : start.anchor = "/" := by
    cases starts with
    | directory leads => exact resolve_anchor leads
    | @file place leads =>
        have hplace : place.anchor = "/" := resolve_anchor leads
        exact hplace
  have hanchor : (directory.child "package.json").parent.anchor = "/" := above.1.trans hstart
  have habsolute : (directory.child "package.json").parent.isAbsolute = true := by
    simp [Path.isAbsolute, hanchor]
  simp [slashed, Path.toString_eq habsolute, hanchor]

end Package

end CssExtract
