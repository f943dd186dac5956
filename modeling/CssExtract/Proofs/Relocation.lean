import CssExtract.Proofs.MaskScope
import CssExtract.Styled.Naming

namespace CssExtract

open Text Glob

namespace Path

variable {p : Path} {directory file name : String} {s r : List Char} {parts : List String}

def joined (directory file : String) : String :=
  if directory.toList.getLast? = some '/' then directory ++ file else directory ++ "/" ++ file

theorem isAbsolute_ofString_iff : (ofString file).isAbsolute = true ↔ file.toList.head? = some '/' := by
  simp only [ofString, ofChars, isAbsolute]
  cases file.toList with
  | nil => simp
  | cons c cs =>
      by_cases hc : c = '/'
      · simp only [hc, decide_true, List.takeWhile_cons_of_pos, List.length_cons]
        split_ifs <;> simp_all
      · simp [hc]

theorem takeWhile_slash_append (h : (∃ c ∈ s, c ≠ '/') ∨ r.head? ≠ some '/') :
    (s ++ r).takeWhile (· = '/') = s.takeWhile (· = '/') := by
  rw [List.takeWhile_append]
  split_ifs with hall
  · have hslashes : s.takeWhile (· = '/') = s := (List.takeWhile_prefix _).eq_of_length hall
    have hevery : s.all (· = '/') = true := hslashes ▸ List.all_takeWhile
    rcases h with ⟨c, hmem, hc⟩ | hhead
    · exact absurd (by simpa using List.all_eq_true.1 hevery c hmem) hc
    · cases r with
      | nil => simp [hslashes]
      | cons c r =>
          have hc : c ≠ '/' := by simpa using hhead
          simp [hslashes, hc]
  · rfl

theorem anchor_append (h : (∃ c ∈ s, c ≠ '/') ∨ r.head? ≠ some '/') :
    (ofChars (s ++ r)).anchor = (ofChars s).anchor := by
  simp only [ofChars, takeWhile_slash_append h]

theorem parts_append (s r : List Char) :
    (ofChars (s ++ '/' :: r)).parts = (ofChars s).parts ++ (ofChars r).parts := by
  simp [ofChars, splitOn_append]

theorem child_relative (h : (ofString file).isAbsolute = false) :
    p.child file = ⟨p.anchor, p.parts ++ (ofString file).parts⟩ := by
  rw [child, join, h, if_neg Bool.false_ne_true]

/-- However many slashes end the directory, and whatever its components are, a joined text is read as
the components of the one and then those of the other. -/
theorem ofString_joined (hdirectory : directory ≠ "") (hfile : (ofString file).isAbsolute = false) :
    ofString (joined directory file) = (ofString directory).child file := by
  have hhead : file.toList.head? ≠ some '/' := fun h => by
    simp [isAbsolute_ofString_iff.2 h] at hfile
  have hne : directory.toList ≠ [] := by simpa using hdirectory
  rw [child_relative hfile, joined, ofString, Path.mk.injEq]
  split_ifs with hlast
  · obtain ⟨above, habove⟩ := List.getLast?_eq_some_iff.1 hlast
    rw [String.toList_append]
    refine ⟨anchor_append (.inr hhead), ?_⟩
    rw [ofString, habove, List.append_assoc, List.singleton_append, parts_append, parts_append]
    simp [ofChars, splitOn, ofString]
  · rw [String.toList_append, String.toList_append, List.append_assoc]
    refine ⟨anchor_append (.inl ⟨_, List.getLast_mem hne, fun h => hlast ?_⟩), parts_append _ _⟩
    rw [List.getLast?_eq_some_getLast hne, h]

theorem below?_child (h : (ofString file).isAbsolute = false) :
    (p.child file).below? p = some (ofString file) := by
  have hanchor : (ofString file).anchor = "" := by simpa [isAbsolute] using h
  rw [child_relative h, below?]
  simp [← hanchor]

/-- A path as a text is read. -/
structure IsRead (p : Path) : Prop where
  anchor : p.anchor ∈ ["", "/", "//"]
  parts : ∀ part ∈ p.parts, IsPart part.toList ∧ part ≠ "."

theorem isRead_ofString (s : String) : (ofString s).IsRead where
  anchor := by
    simp only [ofString, ofChars]
    split_ifs <;> simp
  parts part hmem := by
    refine ⟨isPart_of_mem_parts hmem, ?_⟩
    simp only [ofString, ofChars, List.mem_map, List.mem_filter] at hmem
    obtain ⟨part, ⟨-, hpart⟩, rfl⟩ := hmem
    rintro hdot
    obtain rfl : part = ['.'] := by simpa using congrArg String.toList hdot
    simp at hpart

theorem IsRead.child (h : p.IsRead) (hfile : (ofString file).isAbsolute = false) : (p.child file).IsRead := by
  rw [child_relative hfile]
  refine ⟨h.anchor, fun part hmem => ?_⟩
  rcases List.mem_append.1 hmem with hmem | hmem
  · exact h.parts part hmem
  · exact (isRead_ofString file).parts part hmem

theorem parts_of_isPart (h : IsPart s) (hdot : s ≠ ['.']) : (ofChars s).parts = [String.ofList s] := by
  simp [ofChars, splitOn_of_notMem h.2, h.1, hdot]

theorem parts_intercalate (h : ∀ part ∈ parts, IsPart part.toList ∧ part ≠ ".") :
    (ofChars ("/".intercalate parts).toList).parts = parts := by
  induction parts with
  | nil => rfl
  | cons part parts ih =>
      obtain ⟨⟨hpart, hdot⟩, hrest⟩ := List.forall_mem_cons.1 h
      have hdot : part.toList ≠ ['.'] := fun heq => hdot (String.toList_injective heq)
      have hone := parts_of_isPart hpart hdot
      rw [String.ofList_toList] at hone
      cases parts with
      | nil => simpa [String.toList_intercalate] using hone
      | cons next parts =>
          have htext : ("/".intercalate (part :: next :: parts)).toList =
              part.toList ++ '/' :: ("/".intercalate (next :: parts)).toList := by
            simp [String.toList_intercalate]
          rw [htext, parts_append, hone, ih hrest, List.singleton_append]

theorem head?_intercalate (h : ∀ part ∈ parts, IsPart part.toList ∧ part ≠ ".") :
    ("/".intercalate parts).toList.head? ≠ some '/' := by
  cases parts with
  | nil => simp
  | cons part parts =>
      obtain ⟨⟨⟨hne, hslash⟩, -⟩, -⟩ := List.forall_mem_cons.1 h
      obtain ⟨c, cs, hc⟩ := List.exists_cons_of_ne_nil hne
      rw [hc, List.mem_cons, not_or] at hslash
      cases parts <;> simp [String.toList_intercalate, hc, Ne.symm hslash.1]

theorem ofString_toString (h : p.IsRead) : ofString p.toString = p := by
  have hhead := head?_intercalate h.parts
  have hread := parts_intercalate h.parts
  by_cases hnone : p = ⟨"", []⟩
  · rw [hnone]
    rfl
  have htext : p.toString.toList = p.anchor.toList ++ ("/".intercalate p.parts).toList := by
    rw [toString, if_neg (fun hempty => hnone ?_), String.toList_append]
    obtain ⟨anchor, parts⟩ := p
    simpa using hempty
  have hparts : (ofChars (p.anchor.toList ++ ("/".intercalate p.parts).toList)).parts = p.parts := by
    have hanchor := h.anchor
    simp only [List.mem_cons, List.not_mem_nil, or_false] at hanchor
    rcases hanchor with hanchor | hanchor | hanchor <;> rw [hanchor]
    · exact hread
    · exact (parts_append [] _).trans hread
    · exact (parts_append ['/'] _).trans hread
  have hanchor : (ofChars p.anchor.toList).anchor = p.anchor := by
    have hanchor := h.anchor
    simp only [List.mem_cons, List.not_mem_nil, or_false] at hanchor
    rcases hanchor with hanchor | hanchor | hanchor <;> rw [hanchor] <;> decide
  rw [ofString, htext]
  exact congrArg₂ Path.mk ((anchor_append (.inr hhead)).trans hanchor) hparts

theorem IsRead.toString_ne_empty (h : p.IsRead) : p.toString ≠ "" := by
  intro hempty
  have hread := ofString_toString h
  rw [hempty] at hread
  rw [← hread] at hempty
  exact absurd hempty (by decide)

/-- The name of a file that lies in a directory: its text joined to that of the directory, or the path that
the two make, written anew. -/
inductive Places (directory file : String) : String → Prop
  | text : Places directory file (joined directory file)
  | path : Places directory file ((ofString directory).child file).toString

theorem Places.ofString_eq (h : Places directory file name) (hdirectory : directory ≠ "")
    (hfile : (ofString file).isAbsolute = false) : ofString name = (ofString directory).child file := by
  cases h with
  | text => exact ofString_joined hdirectory hfile
  | path => exact ofString_toString ((isRead_ofString directory).child hfile)

theorem Places.ne_empty (h : Places directory file name) (hdirectory : directory ≠ "")
    (hfile : (ofString file).isAbsolute = false) : name ≠ "" := by
  cases h with
  | text =>
      rw [joined]
      split_ifs <;> simp [hdirectory]
  | path => exact ((isRead_ofString directory).child hfile).toString_ne_empty

end Path

namespace Styled

variable {root root₁ root₂ name name₁ name₂ file : String}

theorem relativeName_of_root (hroot : root ≠ "") (hfile : (Path.ofString file).isAbsolute = false)
    (hname : Path.Places root file name) :
    relativeName (some name) (some root) = (Path.ofString file).toString := by
  have hname' : (some name).filter (!·.isEmpty) = some name := by
    simpa using hname.ne_empty hroot hfile
  have hroot' : (some root).filter (!·.isEmpty) = some root := by simpa using hroot
  simp only [relativeName, hname', hroot', hname.ofString_eq hroot hfile, Path.below?_child hfile,
    Option.getD_some]

theorem relativeName_of_none (hfile : file ≠ "") :
    relativeName (some file) none = (Path.ofString file).toString := by
  have hfile' : (some file).filter (!·.isEmpty) = some file := by simpa using hfile
  simp only [relativeName, hfile', Option.filter_none]

/-- Slug and class name are the same for two roots of the project, and without a root for the path of the
file in the project. -/
theorem namesOf_relocated (displayName : String) (idx : Int) (options : Options)
    (hroot₁ : root₁ ≠ "") (hroot₂ : root₂ ≠ "") (hfile : file ≠ "")
    (hrelative : (Path.ofString file).isAbsolute = false)
    (hname₁ : Path.Places root₁ file name₁) (hname₂ : Path.Places root₂ file name₂) :
    namesOf displayName idx { options with root := some root₁ } (some name₁) =
        namesOf displayName idx { options with root := some root₂ } (some name₂) ∧
      namesOf displayName idx { options with root := some root₂ } (some name₂) =
        namesOf displayName idx { options with root := none } (some file) := by
  have hone := relativeName_of_root hroot₁ hrelative hname₁
  have htwo := relativeName_of_root hroot₂ hrelative hname₂
  have hbare := relativeName_of_none hfile
  simp only [namesOf, hone, htwo, hbare, and_self]

def cardFile : String := "src/.././ui//Card.module.js"

def namedByPlace : Options := { classNaming := .pattern "[dir]-[name][ext]" }

theorem movedCard_named :
    "/work//app/" ≠ "" ∧ "../my app" ≠ "" ∧ cardFile ≠ "" ∧ (Path.ofString cardFile).isAbsolute = false ∧
      Path.Places "/work//app/" cardFile "/work//app/src/.././ui//Card.module.js" ∧
      Path.Places "../my app" cardFile "../my app/src/../ui/Card.module.js" ∧
      namesOf "Card" 3 { namedByPlace with root := some "/work//app/" }
          (some "/work//app/src/.././ui//Card.module.js") =
        namesOf "Card" 3 { namedByPlace with root := some "../my app" }
          (some "../my app/src/../ui/Card.module.js") ∧
      (namesOf "Card" 3 { namedByPlace with root := some "../my app" }
        (some "../my app/src/../ui/Card.module.js")).className = "ui-Card_module_js" := by
  have hfile : cardFile ≠ "" := by decide
  have hrelative : (Path.ofString cardFile).isAbsolute = false := by decide
  have hname₁ : Path.Places "/work//app/" cardFile "/work//app/src/.././ui//Card.module.js" := .text
  have hname₂ : Path.Places "../my app" cardFile "../my app/src/../ui/Card.module.js" := .path
  have hclass : (namesOf "Card" 3 { namedByPlace with root := none } (some cardFile)).className =
      "ui-Card_module_js" := by decide +kernel
  obtain ⟨hsame, hbare⟩ := namesOf_relocated "Card" 3 namedByPlace (by decide) (by decide) hfile hrelative
    hname₁ hname₂
  exact ⟨by decide, by decide, hfile, hrelative, hname₁, hname₂, hsame, hbare ▸ hclass⟩

end Styled

end CssExtract
