import CssExtract.Package.Mask
import CssExtract.Proofs.PatternText

namespace CssExtract

open Text Glob

theorem Text.notMem_of_mem_splitOn {x : Char} {s part : List Char} (h : part ∈ splitOn x s) : x ∉ part := by
  induction s generalizing part with
  | nil =>
      rw [splitOn, List.mem_singleton] at h
      simp [h]
  | cons c s ih =>
      rw [splitOn] at h
      split at h
      · rcases List.mem_cons.1 h with rfl | h
        · exact List.not_mem_nil
        · exact ih h
      · rename_i hc
        obtain ⟨first, parts, hs⟩ := List.exists_cons_of_ne_nil (splitOn_ne_nil x s)
        rw [hs] at h ih
        rcases List.mem_cons.1 h with rfl | h
        · exact List.not_mem_cons_of_ne_of_not_mem (Ne.symm hc) (ih List.mem_cons_self)
        · exact ih (List.mem_cons_of_mem first h)

namespace Glob

variable {globmatch : Matcher} {n : Nat} {part pattern path : List Char} {parts : List (List Char)}

def Relative (s : List Char) : Prop := s ≠ [] ∧ s.head? ≠ some '/'

/-- What a matcher has to make of a segment in front of a pattern that holds nothing special: it matches
itself alone, with as many slashes before it. -/
structure LiteralSegments (globmatch : Matcher) : Prop where
  front : ∀ {n : Nat} {part pattern path : List Char}, IsPart part → Literal part → '\\' ∉ part →
    Relative pattern → Relative path →
      globmatch (slashes n ++ '/' :: (part ++ '/' :: pattern)) (slashes n ++ '/' :: (part ++ '/' :: path)) =
        globmatch ('/' :: pattern) ('/' :: path)
  whole : ∀ {n : Nat} {part path : List Char}, IsPart part → Literal part → '\\' ∉ part → Relative path →
    globmatch (slashes n ++ '/' :: part) (slashes n ++ '/' :: (part ++ '/' :: path)) =
      globmatch ['/'] ('/' :: path)

theorem IsPart.relative_append (h : IsPart part) (s : List Char) : Relative (part ++ s) := by
  obtain ⟨hne, hslash⟩ := h
  obtain ⟨c, part, rfl⟩ := List.exists_cons_of_ne_nil hne
  rw [List.mem_cons, not_or] at hslash
  exact ⟨by simp, by simpa using Ne.symm hslash.1⟩

/-- The parts of a directory, as a matcher reads them. -/
structure LiteralParts (parts : List (List Char)) : Prop where
  isPart : ∀ part ∈ parts, IsPart part
  literal : ∀ part ∈ parts, Literal part
  backslash : ∀ part ∈ parts, '\\' ∉ part

theorem LiteralParts.tail (h : LiteralParts (part :: parts)) : LiteralParts parts where
  isPart := (List.forall_mem_cons.1 h.isPart).2
  literal := (List.forall_mem_cons.1 h.literal).2
  backslash := (List.forall_mem_cons.1 h.backslash).2

theorem above_cons_append (part : List Char) (parts : List (List Char)) (s : List Char) :
    above (part :: parts) ++ s = '/' :: (part ++ (above parts ++ s)) := by
  simp [above]

theorem LiteralSegments.above (hglob : LiteralSegments globmatch) (hparts : LiteralParts parts)
    (hroot : parts = [] → n = 0) (hpattern : Relative pattern) (hpath : Relative path) :
    globmatch (slashes n ++ (above parts ++ '/' :: pattern)) (slashes n ++ (above parts ++ '/' :: path)) =
      globmatch ('/' :: pattern) ('/' :: path) := by
  induction parts generalizing n with
  | nil =>
      rw [hroot rfl]
      rfl
  | cons part parts ih =>
      have hpart := hparts.isPart part List.mem_cons_self
      have hfront {pattern path : List Char} (hpattern : Relative pattern) (hpath : Relative path) :=
        hglob.front (n := n) hpart (hparts.literal part List.mem_cons_self)
          (hparts.backslash part List.mem_cons_self) hpattern hpath
      rw [above_cons_append, above_cons_append]
      cases parts with
      | nil => exact hfront hpattern hpath
      | cons next parts =>
          have hnext := hparts.isPart next (by simp)
          rw [above_cons_append, above_cons_append, hfront (hnext.relative_append _) (hnext.relative_append _)]
          have hrest := ih (n := 0) hparts.tail (by simp)
          rwa [above_cons_append, above_cons_append] at hrest

theorem LiteralSegments.directory (hglob : LiteralSegments globmatch) (hparts : LiteralParts parts)
    (hne : parts ≠ []) (hpath : Relative path) :
    globmatch (slashes n ++ Glob.above parts) (slashes n ++ (Glob.above parts ++ '/' :: path)) =
      globmatch ['/'] ('/' :: path) := by
  induction parts generalizing n with
  | nil => exact absurd rfl hne
  | cons part parts ih =>
      have hpart := hparts.isPart part List.mem_cons_self
      have hliteral := hparts.literal part List.mem_cons_self
      have hbackslash := hparts.backslash part List.mem_cons_self
      rw [above_cons_append]
      cases parts with
      | nil => simpa [Glob.above] using hglob.whole (n := n) hpart hliteral hbackslash hpath
      | cons next parts =>
          have hnext := hparts.isPart next (by simp)
          have hsplit : Glob.above (part :: next :: parts) = '/' :: (part ++ '/' :: (next ++ Glob.above parts)) := by
            simp [Glob.above]
          rw [hsplit, above_cons_append, hglob.front hpart hliteral hbackslash (hnext.relative_append _)
            (hnext.relative_append _)]
          have hrest := ih (n := 0) hparts.tail (by simp)
          rw [above_cons_append] at hrest
          simpa [Glob.above] using hrest

theorem literalSegments_globmatch : LiteralSegments Glob.globmatch where
  front hpart hliteral _ _ _ := globmatch_part hpart hliteral _ _
  whole hpart hliteral _ _ := globmatch_whole hpart hliteral _

end Glob

namespace Path

variable {p q : Path} {s : String} {parts : List String}

theorem isPart_of_mem_parts {part : String} (h : part ∈ (ofString s).parts) : IsPart part.toList := by
  simp only [ofString, ofChars, List.mem_map, List.mem_filter] at h
  obtain ⟨part, ⟨hmem, hpart⟩, rfl⟩ := h
  rw [IsPart, String.toList_ofList]
  refine ⟨?_, notMem_of_mem_splitOn hmem⟩
  rintro rfl
  simp at hpart

theorem mem_of_mem_push {anchored : Bool} {up : List String} {part next : String}
    (h : part ∈ push anchored up next) : part = next ∨ part ∈ up := by
  unfold push at h
  split at h
  · exact List.mem_cons.1 h
  split at h
  · split_ifs at h
    · simp at h
    · exact .inl (List.mem_singleton.1 h)
  · split_ifs at h
    · exact List.mem_cons.1 h
    · exact .inr (List.mem_cons_of_mem _ h)

theorem mem_of_mem_foldl_push {anchored : Bool} {up : List String} {part : String}
    (h : part ∈ parts.foldl (push anchored) up) : part ∈ parts ∨ part ∈ up := by
  induction parts generalizing up with
  | nil => exact .inr h
  | cons next parts ih =>
      rcases ih h with h | h
      · exact .inl (List.mem_cons_of_mem next h)
      · rcases mem_of_mem_push h with rfl | h
        · exact .inl List.mem_cons_self
        · exact .inr h

theorem mem_collapse {part : String} (h : part ∈ p.collapse.parts) : part ∈ p.parts := by
  rw [collapse, List.mem_reverse] at h
  exact (mem_of_mem_foldl_push h).resolve_right List.not_mem_nil

theorem collapse_join (hrelative : q.isAbsolute = false) (hup : ".." ∉ q.parts) :
    (p.join q).collapse = ⟨p.anchor, p.collapse.parts ++ q.parts⟩ := by
  have hanchored : isAbsolute ⟨p.anchor, p.parts ++ q.parts⟩ = p.isAbsolute := rfl
  rw [join, hrelative, if_neg Bool.false_ne_true, collapse, hanchored, List.foldl_append, foldl_push hup,
    List.reverse_append, List.reverse_reverse, collapse]

theorem toString_eq (habsolute : p.isAbsolute = true) : p.toString = p.anchor ++ "/".intercalate p.parts := by
  have hanchor : p.anchor.isEmpty = false := by simpa [isAbsolute] using habsolute
  rw [toString, hanchor]
  rfl

theorem above_eq (hne : parts ≠ []) :
    above (parts.map String.toList) = '/' :: ("/".intercalate parts).toList := by
  induction parts with
  | nil => exact absurd rfl hne
  | cons part parts ih =>
      rw [String.toList_intercalate] at ih ⊢
      cases parts with
      | nil => simp [above]
      | cons next parts =>
          have habove : above ((part :: next :: parts).map String.toList) =
              '/' :: part.toList ++ above ((next :: parts).map String.toList) := rfl
          rw [habove, ih (List.cons_ne_nil _ _)]
          simp [List.intercalate_cons_cons]

theorem toString_toList {n : Nat} (hanchor : p.anchor.toList = slashes n ++ ['/']) (hne : p.parts ≠ []) :
    p.toString.toList = slashes n ++ above (p.parts.map String.toList) := by
  have habsolute : p.isAbsolute = true := by
    rw [isAbsolute, Bool.not_eq_true', String.isEmpty_eq_false_iff]
    intro hempty
    simp [hempty] at hanchor
  rw [toString_eq habsolute, String.toList_append, hanchor, above_eq hne, List.append_assoc,
    List.singleton_append]

theorem relative_intercalate (hne : parts ≠ []) (hparts : ∀ part ∈ parts, IsPart part.toList) :
    Relative ("/".intercalate parts).toList := by
  cases parts with
  | nil => exact absurd rfl hne
  | cons part parts =>
      obtain ⟨hpart, -⟩ := List.forall_mem_cons.1 hparts
      have happend : ∃ rest, ("/".intercalate (part :: parts)).toList = part.toList ++ rest := by
        rw [String.toList_intercalate]
        cases parts with
        | nil => exact ⟨[], by simp⟩
        | cons next parts =>
            rw [List.map_cons, List.map_cons, List.intercalate_cons_cons, List.append_assoc]
            exact ⟨_, rfl⟩
      obtain ⟨rest, hrest⟩ := happend
      rw [hrest]
      exact hpart.relative_append rest

theorem anchor_ofString (h : (ofString s).isAbsolute = true) :
    (ofString s).anchor = "/" ∨ (ofString s).anchor = "//" := by
  simp only [ofString, ofChars, isAbsolute] at h ⊢
  split_ifs at h ⊢
  · simp at h
  · exact .inr rfl
  · exact .inl rfl

end Path

namespace Package

variable {d d₁ d₂ mask : String}

/-- An absolute path as normalisation leaves it. -/
structure Normalised (directory : String) : Prop where
  absolute : (Path.ofString directory).isAbsolute = true
  collapsed : (Path.ofString directory).collapse.toString = directory

/-- A directory of which no part is read as part of a pattern. -/
structure Plain (directory : String) : Prop extends Normalised directory where
  literal : Literal directory.toList
  backslash : '\\' ∉ directory.toList
  single : directory ≠ "//"

/-- A mask for files below the directory it is joined to. -/
structure Inner (mask : String) : Prop where
  relative : (Path.ofString (withSlashes mask)).isAbsolute = false
  below : ".." ∉ (Path.ofString (withSlashes mask)).parts

instance (directory : String) : Decidable (Normalised directory) :=
  decidable_of_iff ((Path.ofString directory).isAbsolute = true ∧
      (Path.ofString directory).collapse.toString = directory)
    ⟨fun h => ⟨h.1, h.2⟩, fun h => ⟨h.absolute, h.collapsed⟩⟩

instance (directory : String) : Decidable (Plain directory) :=
  decidable_of_iff (Normalised directory ∧ Literal directory.toList ∧ '\\' ∉ directory.toList ∧
      directory ≠ "//")
    ⟨fun h => ⟨h.1, h.2.1, h.2.2.1, h.2.2.2⟩, fun h => ⟨h.toNormalised, h.literal, h.backslash, h.single⟩⟩

instance (mask : String) : Decidable (Inner mask) :=
  decidable_of_iff ((Path.ofString (withSlashes mask)).isAbsolute = false ∧
      ".." ∉ (Path.ofString (withSlashes mask)).parts)
    ⟨fun h => ⟨h.1, h.2⟩, fun h => ⟨h.relative, h.below⟩⟩

def fileIn (directory file : String) : String :=
  if directory = "/" then "/" ++ file else directory ++ "/" ++ file

theorem toList_withSlashes (s : String) :
    (withSlashes s).toList = s.toList.map fun c => if c = '\\' then '/' else c := by
  rw [withSlashes, String.toList_map]

theorem withSlashes_of_notMem {s : String} (h : '\\' ∉ s.toList) : withSlashes s = s := by
  rw [← String.toList_inj, toList_withSlashes]
  refine (List.map_congr_left fun c hmem => if_neg ?_).trans (List.map_id _)
  rintro rfl
  exact h hmem

def components (directory : String) : List String := (Path.ofString directory).collapse.parts

theorem Plain.exists_slashes (h : Plain d) : ∃ n, (Path.ofString d).anchor.toList = slashes n ++ ['/'] ∧
    (components d = [] → d = "/" ∧ n = 0) := by
  have hcollapsed : d = (Path.ofString d).anchor ++ "/".intercalate (components d) := by
    have habsolute : (Path.ofString d).collapse.isAbsolute = true := h.absolute
    exact h.collapsed.symm.trans (Path.toString_eq habsolute)
  rcases Path.anchor_ofString h.absolute with hanchor | hanchor
  · refine ⟨0, by rw [hanchor]; rfl, fun hnone => ⟨?_, rfl⟩⟩
    rw [hcollapsed, hnone, hanchor]
    rfl
  · refine ⟨1, by rw [hanchor]; rfl, fun hnone => absurd ?_ h.single⟩
    rw [hcollapsed, hnone, hanchor]
    rfl

theorem isPart_of_mem_components (part : List Char) (hmem : part ∈ (components d).map String.toList) :
    IsPart part := by
  obtain ⟨component, hcomponent, rfl⟩ := List.mem_map.1 hmem
  exact Path.isPart_of_mem_parts (Path.mem_collapse hcomponent)

theorem Plain.fullMask_eq (h : Plain d) (hmask : Inner mask) : fullMask d mask = Path.toString
    ⟨(Path.ofString d).anchor, components d ++ (Path.ofString (withSlashes mask)).parts⟩ := by
  rw [fullMask, withSlashes_of_notMem h.backslash, Path.collapse_join hmask.relative hmask.below, components]

section Spelling

variable {n : Nat} (h : Plain d) (hanchor : (Path.ofString d).anchor.toList = slashes n ++ ['/'])

include h hanchor

theorem Plain.toList_eq (hne : components d ≠ []) :
    d.toList = slashes n ++ above ((components d).map String.toList) := by
  have hd : d.toList = (Path.ofString d).collapse.toString.toList := by rw [h.collapsed]
  rw [hd]
  exact Path.toString_toList hanchor hne

theorem Plain.literalParts : LiteralParts ((components d).map String.toList) := by
  have hwithin : ∀ part ∈ (components d).map String.toList, part <:+: d.toList := by
    intro part hmem
    obtain ⟨before, after, hsplit⟩ := List.append_of_mem hmem
    rw [h.toList_eq hanchor (by rintro hnil; simp [hnil] at hmem), hsplit]
    exact ⟨slashes n ++ above before ++ ['/'], above after, by simp [above]⟩
  exact ⟨isPart_of_mem_components, fun part hmem => h.literal.of_infix (hwithin part hmem),
    fun part hmem hback => h.backslash ((hwithin part hmem).subset hback)⟩

theorem Plain.toList_fileIn (hroot : components d = [] → d = "/" ∧ n = 0) (file : String) :
    (withSlashes (fileIn d file)).toList =
      slashes n ++ (above ((components d).map String.toList) ++ '/' :: (withSlashes file).toList) := by
  by_cases hne : components d = []
  · obtain ⟨rfl, rfl⟩ := hroot hne
    rw [fileIn, if_pos rfl, hne, toList_withSlashes, toList_withSlashes, String.toList_append,
      List.map_append]
    rfl
  · have htext := h.toList_eq hanchor hne
    have hother : d ≠ "/" := by
      rintro rfl
      exact hne (by decide)
    have hd : d.toList.map (fun c => if c = '\\' then '/' else c) = d.toList := by
      rw [← toList_withSlashes, withSlashes_of_notMem h.backslash]
    rw [fileIn, if_neg hother, toList_withSlashes, toList_withSlashes, String.toList_append,
      String.toList_append, List.map_append, List.map_append, hd, htext]
    simp

end Spelling

def rootPattern (mask : String) : List Char :=
  if (Path.ofString (withSlashes mask)).parts = [] then ['/']
  else above ((Path.ofString (withSlashes mask)).parts.map String.toList)

variable {globmatch : Glob.Matcher} {file : String}

/-- A mask says of a file in a directory what it says of the file below the root. -/
theorem Plain.matchesMask_eq (hglob : LiteralSegments globmatch) (h : Plain d) (hmask : Inner mask)
    (hfile : Relative (withSlashes file).toList) :
    matchesMask globmatch (fileIn d file) d mask =
      globmatch (rootPattern mask) ('/' :: (withSlashes file).toList) := by
  obtain ⟨n, hanchor, hroot⟩ := h.exists_slashes
  have hparts := h.literalParts hanchor
  rw [matchesMask, rootPattern, h.toList_fileIn hanchor hroot, h.fullMask_eq hmask]
  by_cases hnone : (Path.ofString (withSlashes mask)).parts = []
  · have hd : Path.toString ⟨(Path.ofString d).anchor, components d ++ []⟩ = d := by
      rw [List.append_nil]
      exact h.collapsed
    rw [if_pos hnone, hnone, hd]
    by_cases hne : components d = []
    · obtain ⟨rfl, rfl⟩ := hroot hne
      rw [hne]
      rfl
    · rw [h.toList_eq hanchor hne, hglob.directory hparts (by simpa using hne) hfile]
  · have hpattern : (Path.mk (Path.ofString d).anchor
        (components d ++ (Path.ofString (withSlashes mask)).parts)).toString.toList =
          slashes n ++ above ((components d ++ (Path.ofString (withSlashes mask)).parts).map String.toList) :=
      Path.toString_toList hanchor (by simp [hnone])
    have habove (xs ys : List (List Char)) : above (xs ++ ys) = above xs ++ above ys := List.flatMap_append
    rw [if_neg hnone, hpattern, List.map_append, habove, Path.above_eq hnone]
    refine hglob.above hparts (fun hnil => (hroot (List.map_eq_nil_iff.1 hnil)).2) ?_ hfile
    exact Path.relative_intercalate hnone fun part hmem => Path.isPart_of_mem_parts hmem

/-- Whether a mask covers a file depends on where the file lies in the package, and not on where the
package lies. -/
theorem matchesMask_fileIn (hglob : LiteralSegments globmatch) (h₁ : Plain d₁) (h₂ : Plain d₂)
    (hmask : Inner mask) (hfile : Relative (withSlashes file).toList) :
    matchesMask globmatch (fileIn d₁ file) d₁ mask = matchesMask globmatch (fileIn d₂ file) d₂ mask := by
  rw [h₁.matchesMask_eq hglob hmask hfile, h₂.matchesMask_eq hglob hmask hfile]

theorem copiedPackage_covered :
    LiteralSegments Glob.globmatch ∧ Plain "/home/me/.cache/app (copy)" ∧ Plain "/" ∧
      Inner "src/**/*.\x7bjs,ts\x7d" ∧ Relative (withSlashes "src/ui/Card.ts").toList ∧
      matchesMask Glob.globmatch (fileIn "/home/me/.cache/app (copy)" "src/ui/Card.ts")
        "/home/me/.cache/app (copy)" "src/**/*.\x7bjs,ts\x7d" = .ok true ∧
      matchesMask Glob.globmatch (fileIn "/" "src/ui/Card.ts") "/" "src/**/*.\x7bjs,ts\x7d" = .ok true := by
  have hcopy : Plain "/home/me/.cache/app (copy)" := by decide +kernel
  have hroot : Plain "/" := by decide +kernel
  have hmask : Inner "src/**/*.\x7bjs,ts\x7d" := by decide +kernel
  have hfile : Relative (withSlashes "src/ui/Card.ts").toList := ⟨by decide +kernel, by decide +kernel⟩
  have hcovered : matchesMask Glob.globmatch (fileIn "/" "src/ui/Card.ts") "/" "src/**/*.\x7bjs,ts\x7d" =
      .ok true := by
    decide +kernel
  have heq := matchesMask_fileIn literalSegments_globmatch hcopy hroot hmask hfile
  exact ⟨literalSegments_globmatch, hcopy, hroot, hmask, hfile, heq.trans hcovered, hcovered⟩

/-- Brackets in the name of a directory are read as a set of characters, and stars as wildcards, by a
matcher that knows them. -/
theorem bracketedPackage_uncovered :
    Normalised "/pkg" ∧ Normalised "/pkg[1]" ∧ Normalised "/a/**" ∧ Inner "*.js" ∧
      (∀ globmatch : Glob.Matcher,
        matchesMask globmatch (fileIn "/pkg" "a.js") "/pkg" "*.js" =
          globmatch "/pkg/*.js".toList "/pkg/a.js".toList ∧
        matchesMask globmatch (fileIn "/pkg[1]" "a.js") "/pkg[1]" "*.js" =
          globmatch "/pkg[1]/*.js".toList "/pkg[1]/a.js".toList) ∧
      matchesMask Glob.globmatch (fileIn "/pkg" "a.js") "/pkg" "*.js" = .ok true ∧
      matchesMask Glob.globmatch (fileIn "/pkg[1]" "a.js") "/pkg[1]" "*.js" = .ok false ∧
      matchesMask Glob.globmatch (fileIn "/pkg" "b/a.js") "/pkg" "*.js" = .ok false ∧
      matchesMask Glob.globmatch (fileIn "/a/**" "b/a.js") "/a/**" "*.js" = .ok true := by
  have hpkg : (fullMask "/pkg" "*.js").toList = "/pkg/*.js".toList ∧
      (withSlashes (fileIn "/pkg" "a.js")).toList = "/pkg/a.js".toList := by
    decide +kernel
  have hset : (fullMask "/pkg[1]" "*.js").toList = "/pkg[1]/*.js".toList ∧
      (withSlashes (fileIn "/pkg[1]" "a.js")).toList = "/pkg[1]/a.js".toList := by
    decide +kernel
  refine ⟨by decide +kernel, by decide +kernel, by decide +kernel, by decide +kernel, fun globmatch => ?_,
    by decide +kernel, by decide +kernel, by decide +kernel, by decide +kernel⟩
  simp only [matchesMask, hpkg, hset, and_self]

end Package

end CssExtract
