import CssExtract.Proofs.MaskJoin
import CssExtract.Proofs.Totality
import Mathlib.Data.List.Forall2
import Mathlib.Data.List.ReduceOption

namespace CssExtract

open Text

namespace Path

/-- The name of a file from the root on, of which no component leads elsewhere. -/
structure IsFileName (name : String) : Prop where
  absolute : name.toList.head? = some '/'
  file : name.toList.getLast? ≠ some '/'
  plain : ∀ part ∈ splitOn '/' name.toList, part ≠ ['.'] ∧ part ≠ ['.', '.']

variable {name : String} {directory base : List Char}

theorem directoryOf_eq (hname : name.toList = directory ++ '/' :: base) (hbase : '/' ∉ base) :
    directoryOf name = ofChars (directory ++ ['/']) := by
  have hplain : ∀ c ∈ base.reverse, decide (c ≠ '/') = true := by
    intro c hc
    rw [decide_eq_true_eq]
    rintro rfl
    exact hbase (List.mem_reverse.1 hc)
  rw [directoryOf, hname, List.reverse_append, List.reverse_cons, List.append_assoc,
    List.dropWhile_append_of_pos hplain]
  simp

theorem parent_ofString (hname : name.toList = directory ++ '/' :: base) (hbase : '/' ∉ base)
    (hne : base ≠ [] ∧ base ≠ ['.']) : (ofString name).parent = directoryOf name := by
  have hfirst : base.takeWhile (· = '/') = [] := by
    cases base with
    | nil => rfl
    | cons c base =>
        rw [List.mem_cons, not_or] at hbase
        simp [Ne.symm hbase.1]
  have hslashes : ((directory ++ '/' :: base).takeWhile (· = '/')).length =
      ((directory ++ ['/']).takeWhile (· = '/')).length := by
    rw [List.takeWhile_append, List.takeWhile_append]
    split_ifs <;> simp [hfirst]
  rw [directoryOf_eq hname hbase]
  simp only [ofString, ofChars, parent, hname, hslashes, splitOn_append, splitOn_of_notMem hbase]
  simp [hne, splitOn]

theorem IsFileName.exists_base (h : IsFileName name) : ∃ directory base,
    name.toList = directory ++ '/' :: base ∧ '/' ∉ base ∧ base ≠ [] ∧ base ≠ ['.'] := by
  have hmem : '/' ∈ name.toList.reverse := List.mem_reverse.2 (List.mem_of_head? h.absolute)
  obtain ⟨base, directory, hsplit, hbase⟩ := List.eq_append_cons_of_mem hmem
  have hname : name.toList = directory.reverse ++ '/' :: base.reverse := by
    rw [← List.reverse_reverse name.toList, hsplit]
    simp
  have hplain : '/' ∉ base.reverse := by simpa using hbase
  have hlast : base.reverse ∈ splitOn '/' name.toList := by
    rw [hname, splitOn_append, splitOn_of_notMem hplain]
    simp
  refine ⟨_, _, hname, hplain, ?_, (h.plain _ hlast).1⟩
  intro hnil
  exact h.file (by simp [hname, hnil])

theorem ofString_isAbsolute (h : IsFileName name) : (ofString name).isAbsolute = true :=
  isAbsolute_ofChars.2 h.absolute

theorem IsFileName.absolutePath_eq (h : IsFileName name) (t : Tree) :
    t.absolutePath name = ofString name := by
  have hparts : ".." ∉ (ofString name).parts := by
    intro hmem
    obtain ⟨part, hpart, hup⟩ := List.mem_map.1 hmem
    refine (h.plain part (List.mem_filter.1 hpart).1).2 ?_
    rw [← String.toList_ofList (l := part), hup]
    rfl
  rw [Tree.absolutePath, join, if_pos (ofString_isAbsolute h), collapse, foldl_push hparts]
  simp

end Path

namespace Package

open Eval (Value)

variable {t : Tree}

/-- The text under `components` of the object under `linaria`. -/
inductive DeclaresMask : Value → String → Prop
  | intro {entries settings : Entries Value} {mask : String}
      (settings_eq : Entries.get? "linaria" entries = some (.object settings))
      (mask_eq : Entries.get? "components" settings = some (.string mask)) :
      DeclaresMask (.object entries) mask

variable {manifest : Path} {document : Value}

theorem Holds.readMask (h : Holds t manifest document) :
    ∃ mask, readMask t manifest = .ok mask ∧ ∀ m, mask = some m ↔ DeclaresMask document m := by
  obtain ⟨text, htext, hread⟩ := h
  simp only [Package.readMask, htext, hread]
  split
  · simp_all
  · rename_i entries hdocument
    obtain rfl := Except.ok.inj hdocument
    split
    · rename_i settings hsettings
      split
      · rename_i mask hmask
        refine ⟨_, rfl, fun m => ⟨?_, ?_⟩⟩
        · rintro ⟨⟩
          exact ⟨hsettings, hmask⟩
        · rintro ⟨hsettings', hmask'⟩
          simp_all
      · rename_i hmask
        refine ⟨_, rfl, fun m => ⟨by simp, ?_⟩⟩
        rintro ⟨hsettings', hmask'⟩
        simp_all
    · rename_i hsettings
      refine ⟨_, rfl, fun m => ⟨by simp, ?_⟩⟩
      rintro ⟨hsettings', -⟩
      exact absurd hsettings' (hsettings _)
  · rename_i hother hdocument
    obtain rfl := Except.ok.inj hdocument
    refine ⟨_, rfl, fun m => ⟨by simp, ?_⟩⟩
    rintro ⟨-, -⟩
    exact absurd rfl (hother _)

theorem exists_holds_iff :
    (∃ document, Holds t manifest document) ↔ ∀ e, readMask t manifest ≠ .error e := by
  constructor
  · rintro ⟨document, h⟩ e he
    obtain ⟨mask, hmask, -⟩ := h.readMask
    simp [hmask] at he
  · intro h
    simp only [readMask] at h
    cases htext : t.readText manifest with
    | error fault => simp [htext] at h
    | ok text =>
        cases hread : Json.read text with
        | error e => simp [htext, hread] at h
        | ok document => exact ⟨document, text, htext, hread⟩

end Package

namespace Styled

open Package Script

structure Import where
  file : String
  extensions : List String
  specifier : String

namespace Import

variable {t : Host} {i : Import} {file manifest manifest' : Path} {own found : Option Path}

def directory (i : Import) : Path := (Path.ofString i.file).parent

def LeadsTo (t : Tree) (i : Import) (file : Path) : Prop :=
  resolveModule t i.specifier i.directory i.extensions = .ok file

/-- The manifest that tells whether an import is styled: that of the file it leads to, or else that
of the importing file. -/
inductive Owns (t : Tree) (i : Import) (manifest : Path) : Prop
  | imported {file : Path} (leads : i.LeadsTo t file) (nearest : Nearest t file manifest)
  | importing (missing : ∀ file, i.LeadsTo t file → ∀ other, ¬ Nearest t file other)
      (nearest : Nearest t (Path.ofString i.file) manifest)

/-- The manifest of an import declares a mask that is not empty, and the import leads to a file. What the
matcher says is up to the pattern that the mask is with the directory of the manifest in front, and to the
text of the file's path. -/
inductive Masked (t : Host) (i : Import) (answer : Except Glob.Fault Bool) : Prop
  | intro {manifest file : Path} {document : Eval.Value} {mask pattern : String} (owns : i.Owns t.toTree manifest)
      (holds : Holds t.toTree manifest document) (declares : DeclaresMask document mask) (nonempty : mask ≠ "")
      (leads : i.LeadsTo t.toTree file) (joined : Joined manifest.parent.toString mask pattern)
      (answered : t.globmatch pattern.toList (slashed file.toString) = answer)

/-- All of the importing file's own package is styled, unless its manifest declares a mask; of a
package with a mask that is which the mask matches. -/
inductive CountsAsStyled (t : Host) (i : Import) : Prop
  | own {manifest : Path} {document : Eval.Value} (owns : i.Owns t.toTree manifest)
      (holds : Holds t.toTree manifest document) (nearest : Nearest t.toTree (Path.ofString i.file) manifest)
      (unmasked : ∀ mask, ¬ DeclaresMask document mask)
  | masked (covers : i.Masked t (.ok true))

/-- The warning that is due for an import of a name whose source text is given. -/
inductive Warns (t : Tree) (i : Import) (source : String) : Warning → Prop
  | unresolved {manifest : Path} {document : Eval.Value} {mask : String} (owns : i.Owns t manifest)
      (holds : Holds t manifest document) (declares : DeclaresMask document mask) (nonempty : mask ≠ "")
      (missing : ∀ file, ¬ i.LeadsTo t file) :
      Warns t i source (.unresolvedImport i.specifier (some i.file) source)
  | unreadable {manifest : Path} {fault : ManifestError} (owns : i.Owns t manifest)
      (fails : readMask t manifest = .error fault) :
      Warns t i source (.invalidManifest manifest.toString fault.message source i.specifier)

/-- The system refuses to tell where the nearest manifest is, or the matcher fails at the mask. -/
inductive Unanswered (t : Host) (i : Import) : Failure → Prop
  | importing {fault : Tree.Fault} (refused : SearchRefused t.toTree (Path.ofString i.file) fault) :
      Unanswered t i (.access fault)
  | imported {file : Path} {fault : Tree.Fault} (leads : i.LeadsTo t.toTree file)
      (refused : SearchRefused t.toTree file fault) : Unanswered t i (.access fault)
  | masked {fault : Glob.Fault} (fails : i.Masked t (.error fault)) : Unanswered t i (.matching fault)

theorem Owns.unique {t : Tree} (h : i.Owns t manifest) (h' : i.Owns t manifest') : manifest = manifest' := by
  rcases h with ⟨hleads, hnearest⟩ | ⟨hmissing, hnearest⟩ <;>
    rcases h' with ⟨hleads', hnearest'⟩ | ⟨hmissing', hnearest'⟩
  · obtain rfl := Except.ok.inj (hleads.symm.trans hleads')
    exact hnearest.unique hnearest'
  · exact absurd hnearest (hmissing' _ hleads _)
  · exact absurd hnearest' (hmissing _ hleads' _)
  · exact hnearest.unique hnearest'

structure Located (t : Tree) (i : Import) (own found : Option Path) : Prop where
  own : ∀ manifest, own = some manifest ↔ Nearest t (Path.ofString i.file) manifest
  found : ∀ manifest, found = some manifest ↔ ∃ file, i.LeadsTo t file ∧ Nearest t file manifest

theorem Located.owns_iff {t : Tree} (h : i.Located t own found) :
    i.Owns t manifest ↔ found.or own = some manifest := by
  rw [Option.or_eq_some_iff, h.own]
  constructor
  · rintro (⟨hleads, hnearest⟩ | ⟨hmissing, hnearest⟩)
    · exact .inl ((h.found _).2 ⟨_, hleads, hnearest⟩)
    · refine .inr ⟨Option.eq_none_iff_forall_ne_some.2 fun other hother => ?_, hnearest⟩
      obtain ⟨file, hleads, hother⟩ := (h.found other).1 hother
      exact hmissing file hleads other hother
  · rintro (hfound | ⟨hnone, hnearest⟩)
    · obtain ⟨file, hleads, hnearest⟩ := (h.found _).1 hfound
      exact .imported hleads hnearest
    · refine .importing (fun file hleads other hother => ?_) hnearest
      simpa [hnone] using (h.found other).2 ⟨file, hleads, hother⟩

section OwningManifest

variable {mask : Option String} {document : Eval.Value} {fault : ManifestError} {source : String} {w : Warning}

theorem Owns.directory_absolute {t : Tree} (h : i.Owns t manifest) :
    (slashed manifest.parent.toString).head? = some '/' := by
  rcases h with ⟨-, hnearest⟩ | ⟨-, hnearest⟩ <;> exact hnearest.directory_absolute

theorem mask_of_holds {t : Tree} (howns : i.Owns t manifest) (hread : readMask t manifest = .ok mask)
    (howns' : i.Owns t manifest') (hholds : Holds t manifest' document) :
    manifest' = manifest ∧ ∀ m, mask = some m ↔ DeclaresMask document m := by
  obtain rfl := howns.unique howns'
  obtain ⟨mask', hmask', hdeclares⟩ := hholds.readMask
  obtain rfl := Except.ok.inj (hread.symm.trans hmask')
  exact ⟨rfl, hdeclares⟩

theorem exists_document {t : Tree} (howns : i.Owns t manifest) (hread : readMask t manifest = .ok mask) :
    ∃ document, Holds t manifest document ∧ ∀ m, mask = some m ↔ DeclaresMask document m := by
  obtain ⟨document, hholds⟩ := exists_holds_iff.2 fun e he => by rw [hread] at he; cases he
  exact ⟨document, hholds, (mask_of_holds howns hread howns hholds).2⟩

theorem masked_iff {answer : Except Glob.Fault Bool} (howns : i.Owns t.toTree manifest)
    (hread : readMask t.toTree manifest = .ok mask) : i.Masked t answer ↔ ∃ m, mask = some m ∧ m ≠ "" ∧
      ∃ file, i.LeadsTo t.toTree file ∧
        matchesMask t.globmatch file.toString manifest.parent.toString m = answer := by
  simp only [matchesMask_eq_iff howns.directory_absolute]
  constructor
  · rintro ⟨howns', hholds, hdeclares, hnonempty, hleads, hjoined, hanswered⟩
    obtain ⟨rfl, hmask⟩ := mask_of_holds howns hread howns' hholds
    exact ⟨_, (hmask _).2 hdeclares, hnonempty, _, hleads, _, hjoined, hanswered⟩
  · rintro ⟨m, hm, hnonempty, file, hleads, pattern, hjoined, hanswered⟩
    obtain ⟨document, hholds, hmask⟩ := exists_document howns hread
    exact .intro howns hholds ((hmask m).1 hm) hnonempty hleads hjoined hanswered

theorem countsAsStyled_iff_of_unmasked (howns : i.Owns t.toTree manifest)
    (hread : readMask t.toTree manifest = .ok none) :
    i.CountsAsStyled t ↔ Nearest t.toTree (Path.ofString i.file) manifest := by
  constructor
  · rintro (⟨howns', hholds, hnearest, -⟩ | hcovers)
    · obtain ⟨rfl, -⟩ := mask_of_holds howns hread howns' hholds
      exact hnearest
    · simp [masked_iff howns hread] at hcovers
  · intro hnearest
    obtain ⟨document, hholds, hmask⟩ := exists_document howns hread
    exact .own howns hholds hnearest fun mask hdeclares => by simpa using (hmask mask).2 hdeclares

theorem countsAsStyled_iff_of_masked {m : String} (howns : i.Owns t.toTree manifest)
    (hread : readMask t.toTree manifest = .ok (some m)) : i.CountsAsStyled t ↔ i.Masked t (.ok true) := by
  refine ⟨?_, .masked⟩
  rintro (⟨howns', hholds, -, hunmasked⟩ | hcovers)
  · obtain ⟨-, hmask⟩ := mask_of_holds howns hread howns' hholds
    exact absurd ((hmask m).1 rfl) (hunmasked m)
  · exact hcovers

theorem not_countsAsStyled_of_error (howns : i.Owns t.toTree manifest)
    (hread : readMask t.toTree manifest = .error fault) : ¬ i.CountsAsStyled t := by
  rintro (⟨howns', hholds, -⟩ | ⟨howns', hholds, -⟩)
  all_goals
    obtain rfl := howns.unique howns'
    exact exists_holds_iff.1 ⟨_, hholds⟩ fault hread

theorem warns_iff_of_error {t : Tree} (howns : i.Owns t manifest) (hread : readMask t manifest = .error fault) :
    i.Warns t source w ↔ w = .invalidManifest manifest.toString fault.message source i.specifier := by
  constructor
  · rintro (⟨howns', hholds, -⟩ | ⟨howns', hfails⟩)
    · obtain rfl := howns.unique howns'
      exact absurd hread (exists_holds_iff.1 ⟨_, hholds⟩ fault)
    · obtain rfl := howns.unique howns'
      obtain rfl := Except.error.inj (hread.symm.trans hfails)
      rfl
  · rintro rfl
    exact .unreadable howns hread

theorem warns_iff_of_ok {t : Tree} (howns : i.Owns t manifest) (hread : readMask t manifest = .ok mask) :
    i.Warns t source w ↔ (∃ m, mask = some m ∧ m ≠ "") ∧ (∀ file, ¬ i.LeadsTo t file) ∧
      w = .unresolvedImport i.specifier (some i.file) source := by
  constructor
  · rintro (⟨howns', hholds, hdeclares, hnonempty, hmissing⟩ | ⟨howns', hfails⟩)
    · obtain ⟨rfl, hmask⟩ := mask_of_holds howns hread howns' hholds
      exact ⟨⟨_, (hmask _).2 hdeclares, hnonempty⟩, hmissing, rfl⟩
    · obtain rfl := howns.unique howns'
      simp [hread] at hfails
  · rintro ⟨⟨m, rfl, hnonempty⟩, hmissing, rfl⟩
    obtain ⟨document, hholds, hmask⟩ := exists_document howns hread
    exact .unresolved howns hholds ((hmask m).1 rfl) hnonempty hmissing

end OwningManifest

def importer (i : Import) : Importer := ⟨some i.file, i.extensions⟩

def Resolvable (t : Tree) (i : Import) : Prop := Package.Resolvable t i.specifier i.directory i.extensions

instance (t : Tree) (i : Import) : Decidable (i.Resolvable t) :=
  inferInstanceAs (Decidable (Package.Resolvable ..))

theorem Resolvable.cases {t : Tree} (h : i.Resolvable t) : (∃ file, i.LeadsTo t file) ∨
    (∀ file, ¬ i.LeadsTo t file) ∧ ∃ specifier base,
      resolveModule t i.specifier i.directory i.extensions = .error (.notFound specifier base) := by
  simp only [LeadsTo]
  cases hresolve : resolveModule t i.specifier i.directory i.extensions with
  | ok file => exact .inl ⟨file, rfl⟩
  | error e =>
      obtain ⟨specifier, base, rfl⟩ := h e hresolve
      exact .inr ⟨by simp, specifier, base, rfl⟩

/-- What a run that asks whether an import is styled ends with, after warnings that were given before. -/
def Settled (t : Host) (i : Import) (source : String) (ws : List Warning)
    (result : Except Failure Bool × List Warning) : Prop :=
  (∃ failure, i.Unanswered t failure ∧ result.1 = .error failure) ∨
    ∃ styled given, result = (.ok styled, ws ++ given.toList) ∧ (styled = true ↔ i.CountsAsStyled t) ∧
      ∀ w, given = some w ↔ i.Warns t.toTree source w

section Branches

variable {mask source : String} {fault : ManifestError}

theorem settled_of_unowned (hnone : ∀ manifest, ¬ i.Owns t.toTree manifest) (ws : List Warning) :
    i.Settled t source ws (.ok false, ws) := by
  refine .inr ⟨false, none, by simp, ⟨by simp, ?_⟩, fun w => ⟨by simp, ?_⟩⟩
  · rintro (⟨howns⟩ | ⟨⟨howns⟩⟩) <;> exact absurd howns (hnone _)
  · rintro (⟨howns⟩ | ⟨howns⟩) <;> exact absurd howns (hnone _)

theorem settled_of_unreadable (howns : i.Owns t.toTree manifest) (hread : readMask t.toTree manifest = .error fault)
    (ws : List Warning) : i.Settled t source ws
      (.ok false, ws ++ [.invalidManifest manifest.toString fault.message source i.specifier]) := by
  refine .inr ⟨false, some _, rfl, by simpa using not_countsAsStyled_of_error howns hread, fun w => ?_⟩
  rw [warns_iff_of_error howns hread, Option.some.injEq, eq_comm]

theorem settled_of_unmasked {styled : Bool} (howns : i.Owns t.toTree manifest)
    (hread : readMask t.toTree manifest = .ok none)
    (hstyled : styled = true ↔ Nearest t.toTree (Path.ofString i.file) manifest) (ws : List Warning) :
    i.Settled t source ws (.ok styled, ws) := by
  refine .inr ⟨styled, none, by simp, ?_, fun w => ?_⟩
  · rw [countsAsStyled_iff_of_unmasked howns hread, hstyled]
  · simp [warns_iff_of_ok howns hread]

theorem settled_of_emptyMask (howns : i.Owns t.toTree manifest)
    (hread : readMask t.toTree manifest = .ok (some "")) (ws : List Warning) :
    i.Settled t source ws (.ok false, ws) := by
  refine .inr ⟨false, none, by simp, ?_, fun w => ?_⟩
  · simp [countsAsStyled_iff_of_masked howns hread, masked_iff howns hread]
  · simp [warns_iff_of_ok howns hread]

theorem settled_of_leads (howns : i.Owns t.toTree manifest) (hread : readMask t.toTree manifest = .ok (some mask))
    (hnonempty : mask ≠ "") (hleads : i.LeadsTo t.toTree file) (ws : List Warning) : i.Settled t source ws
      (exec (checkMask t file.toString manifest.parent.toString mask) ws) := by
  have hfile (other : Path) : i.LeadsTo t.toTree other ↔ other = file :=
    ⟨fun hother => Except.ok.inj (hother.symm.trans hleads), fun hother => hother ▸ hleads⟩
  have hmasked (answer : Except Glob.Fault Bool) : i.Masked t answer ↔
      matchesMask t.globmatch file.toString manifest.parent.toString mask = answer := by
    simp [masked_iff howns hread, hnonempty, hfile]
  rw [checkMask]
  cases hmatch : matchesMask t.globmatch file.toString manifest.parent.toString mask with
  | error fault => exact .inl ⟨.matching fault, .masked ((hmasked _).2 hmatch), rfl⟩
  | ok covered =>
      refine .inr ⟨covered, none, by simp, ?_, fun w => ?_⟩
      · simp [countsAsStyled_iff_of_masked howns hread, hmasked, hmatch]
      · simp [warns_iff_of_ok howns hread, hfile]

theorem settled_of_missing (howns : i.Owns t.toTree manifest) (hread : readMask t.toTree manifest = .ok (some mask))
    (hnonempty : mask ≠ "") (hmissing : ∀ file, ¬ i.LeadsTo t.toTree file) (ws : List Warning) :
    i.Settled t source ws (.ok false, ws ++ [.unresolvedImport i.specifier (some i.file) source]) := by
  refine .inr ⟨false, some _, rfl, ?_, fun w => ?_⟩
  · simp [countsAsStyled_iff_of_masked howns hread, masked_iff howns hread, hmissing]
  · simp [warns_iff_of_ok howns hread, hnonempty, hmissing, eq_comm]

end Branches

section FileName

variable (hname : Path.IsFileName i.file)

include hname

theorem filter_file : (some i.file).filter (!·.isEmpty) = some i.file := by
  have hne : i.file.isEmpty = false := by
    rw [String.isEmpty_eq_false_iff]
    intro hempty
    simpa [hempty] using hname.absolute
  rw [Option.filter_some, hne]
  rfl

theorem importer_directory {t : Tree} : i.importer.directory t = i.directory := by
  simp only [importer, Importer.directory, filter_file hname, hname.absolutePath_eq, directory]

theorem importBase_eq : importBase (some i.file) = i.directory := by
  have hne : i.file.isEmpty = false := by simpa [Option.filter_some] using filter_file hname
  obtain ⟨directory, base, hsplit, hbase, hplain⟩ := hname.exists_base
  simp [importBase, hne, Import.directory, Path.parent_ofString hsplit hbase hplain]

theorem selfManifest_eq {t : Tree} : i.importer.selfManifest t =
    (findUp? t (Path.ofString i.file) manifestName).mapError .access := by
  simp only [importer, Importer.selfManifest, filter_file hname, hname.absolutePath_eq]

theorem findManifest?_cases {t : Host} (hself : i.specifier ≠ ".") (hresolvable : i.Resolvable t.toTree) :
    (∃ fault, i.Unanswered t (.access fault) ∧
      findManifest? t.toTree i.specifier (some i.file) i.extensions = .error (.access fault)) ∨
    ∃ found, findManifest? t.toTree i.specifier (some i.file) i.extensions = .ok found ∧
      ∀ manifest, found = some manifest ↔ ∃ file, i.LeadsTo t.toTree file ∧ Nearest t.toTree file manifest := by
  rw [findManifest?_imported fun h => absurd h hself, importBase_eq hname]
  obtain ⟨file, hleads⟩ | ⟨hmissing, specifier, base, hresolve⟩ := hresolvable.cases
  · rw [show resolveModule t.toTree i.specifier i.directory i.extensions = .ok file from hleads]
    have hfile (other : Path) (h : i.LeadsTo t.toTree other) : other = file :=
      Except.ok.inj (h.symm.trans hleads)
    cases hsearch : findUp? t.toTree file manifestName with
    | error fault =>
        exact .inl ⟨fault, .imported hleads (findUp?_eq_error_iff.1 hsearch), by simp [hsearch, Except.mapError]⟩
    | ok found =>
        refine .inr ⟨found, by simp [hsearch, Except.mapError], fun manifest => ?_⟩
        have hfound : found = some manifest ↔ Nearest t.toTree file manifest := by
          simp [← findUp?_eq_some_iff, hsearch]
        rw [hfound]
        constructor
        · exact fun hnearest => ⟨file, hleads, hnearest⟩
        · rintro ⟨other, hother, hnearest⟩
          rwa [← hfile other hother]
  · rw [hresolve]
    exact .inr ⟨none, rfl, fun manifest => by simp [hmissing]⟩

theorem exec_isStyledImport {t : Host} (source : String) (ws : List Warning) (hself : i.specifier ≠ ".")
    (hresolvable : i.Resolvable t.toTree)
    (hown : ∀ manifest, own = some manifest ↔ Nearest t.toTree (Path.ofString i.file) manifest) :
    i.Settled t source ws (exec (isStyledImport t i.importer own source i.specifier) ws) := by
  simp only [isStyledImport, exec_bind, exec_liftResolution, importer_directory hname]
  obtain ⟨fault, hunanswered, hlookup⟩ | ⟨found, hlookup, hfound⟩ := findManifest?_cases hname hself hresolvable
  · refine .inl ⟨_, hunanswered, ?_⟩
    simp only [importer, hlookup, Except.mapError, Failure.ofResolution]
  have hlocated : i.Located t.toTree own found := ⟨hown, hfound⟩
  simp only [importer, hlookup, Except.mapError]
  cases howner : found.or own with
  | none =>
      have hnone (manifest : Path) : ¬ i.Owns t.toTree manifest := fun h => by
        simpa [howner] using hlocated.owns_iff.1 h
      exact settled_of_unowned hnone ws
  | some manifest =>
      have howns := hlocated.owns_iff.2 howner
      dsimp only
      rcases hread : readMask t.toTree manifest with fault | _ | mask
      · exact settled_of_unreadable howns hread ws
      · exact settled_of_unmasked howns hread (decide_eq_true_iff.trans (hown manifest)) ws
      · by_cases hempty : mask = ""
        · subst hempty
          exact settled_of_emptyMask howns hread ws
        have hnonempty : mask.isEmpty = false := by simpa using hempty
        simp only [hnonempty, Bool.false_eq_true, if_false]
        obtain ⟨file, hleads⟩ | ⟨hmissing, specifier, base, hresolve⟩ := hresolvable.cases
        · rw [show resolveModule t.toTree i.specifier i.directory i.extensions = .ok file from hleads]
          exact settled_of_leads howns hread hempty hleads ws
        · rw [hresolve]
          exact settled_of_missing howns hread hempty hmissing ws

end FileName

end Import

/-- The items up to the first of which something is true, with that one. -/
inductive UpToFirst {α : Type} (P : α → Prop) : List α → List α → Prop
  | nil : UpToFirst P [] []
  | first {a : α} {rest : List α} (holds : P a) : UpToFirst P (a :: rest) [a]
  | later {a : α} {rest examined : List α} (fails : ¬ P a) (after : UpToFirst P rest examined) :
      UpToFirst P (a :: rest) (a :: examined)

section Specifiers

variable {t : Host} {file source : String} {extensions specifiers : List String}

/-- The warnings are those that are due for the specifiers that are looked at: those up to the first
that counts as styled. -/
def DueWarnings (t : Host) (file : String) (extensions : List String) (source : String)
    (specifiers : List String) (warnings : List Warning) : Prop :=
  ∃ examined given,
    UpToFirst (fun specifier => Import.CountsAsStyled t ⟨file, extensions, specifier⟩) specifiers
        examined ∧
      List.Forall₂ (fun specifier (warning : Option Warning) => ∀ w, warning = some w ↔
        Import.Warns t.toTree ⟨file, extensions, specifier⟩ source w) examined given ∧
      warnings = given.reduceOption

/-- Of specifiers in order there is one without an answer, and none before it counts as styled. -/
inductive UnansweredAmong (t : Host) (file : String) (extensions specifiers : List String)
    (failure : Failure) : Prop
  | intro {before after : List String} {specifier : String} (split : specifiers = before ++ specifier :: after)
      (unstyled : ∀ other ∈ before, ¬ Import.CountsAsStyled t ⟨file, extensions, other⟩)
      (unanswered : Import.Unanswered t ⟨file, extensions, specifier⟩ failure)

theorem Import.Unanswered.among {failure : Failure} {specifier : String}
    (h : Import.Unanswered t ⟨file, extensions, specifier⟩ failure) (specifiers : List String) :
    UnansweredAmong t file extensions (specifier :: specifiers) failure :=
  have hsplit : specifier :: specifiers = [] ++ specifier :: specifiers := rfl
  ⟨hsplit, by simp, h⟩

theorem UnansweredAmong.cons {failure : Failure} {specifier : String}
    (hfails : ¬ Import.CountsAsStyled t ⟨file, extensions, specifier⟩)
    (h : UnansweredAmong t file extensions specifiers failure) :
    UnansweredAmong t file extensions (specifier :: specifiers) failure := by
  obtain ⟨rfl, unstyled, unanswered⟩ := h
  exact ⟨rfl, List.forall_mem_cons.2 ⟨hfails, unstyled⟩, unanswered⟩

theorem exec_anyStyled {own : Option Path} (hname : Path.IsFileName file) (hbare : "." ∉ specifiers)
    (hresolvable : ∀ specifier ∈ specifiers, Import.Resolvable t.toTree ⟨file, extensions, specifier⟩)
    (hown : ∀ manifest, own = some manifest ↔ Nearest t.toTree (Path.ofString file) manifest)
    (source : String) (ws : List Warning) :
    (∃ failure, UnansweredAmong t file extensions specifiers failure ∧
      (exec (anyStyled t ⟨some file, extensions⟩ own source specifiers) ws).1 = .error failure) ∨
    ∃ styled warnings,
      exec (anyStyled t ⟨some file, extensions⟩ own source specifiers) ws = (.ok styled, ws ++ warnings) ∧
      (styled = true ↔
        ∃ specifier ∈ specifiers, Import.CountsAsStyled t ⟨file, extensions, specifier⟩) ∧
      DueWarnings t file extensions source specifiers warnings := by
  induction specifiers generalizing ws with
  | nil => exact .inr ⟨false, [], by simp [anyStyled], by simp, [], [], .nil, .nil, rfl⟩
  | cons specifier specifiers ih =>
      rw [List.mem_cons, not_or] at hbare
      obtain ⟨hfirst, hrest⟩ := List.forall_mem_cons.1 hresolvable
      have hone := Import.exec_isStyledImport (i := ⟨file, extensions, specifier⟩) hname source ws
        (Ne.symm hbare.1) hfirst hown
      simp only [Import.importer] at hone
      rw [anyStyled]
      obtain ⟨failure, hunanswered, hexec⟩ | ⟨styled, given, hexec, hstyled, hgiven⟩ := hone
      · exact .inl ⟨failure, hunanswered.among specifiers, exec_bind_fst_of_error hexec⟩
      rw [exec_bind, hexec]
      cases styled with
      | true =>
          have hcounts := hstyled.1 rfl
          refine .inr ⟨true, given.toList, by simp, ?_, [specifier], [given], .first hcounts,
            .cons hgiven .nil, ?_⟩
          · simp [hcounts]
          · cases given <;> rfl
      | false =>
          have hfails : ¬ Import.CountsAsStyled t ⟨file, extensions, specifier⟩ := by
            simpa using hstyled
          obtain ⟨failure, hunanswered, hexec'⟩ |
              ⟨styled, warnings, hexec', hstyled', examined, rest, hupto, hdue, rfl⟩ :=
            ih hbare.2 hrest (ws ++ given.toList)
          · exact .inl ⟨failure, hunanswered.cons hfails, by simpa using hexec'⟩
          refine .inr ⟨styled, given.toList ++ rest.reduceOption, ?_, ?_, specifier :: examined,
            given :: rest, .later hfails hupto, .cons hgiven hdue, ?_⟩
          · simpa using hexec'
          · simp [hstyled', hfails]
          · cases given <;> rfl

/-- What is settled about a name that is imported from specifiers: the component, what it depends on,
and the warnings. -/
structure Classified (t : Host) (file : String) (extensions specifiers : List String)
    (name : String) (argument : Operand) (p : Processor) (warnings : List Warning) : Prop where
  component : ∃ foreign, p.component = .reference name argument.source foreign ∧
    (foreign = false ↔ specifiers = [] ∨
      ∃ specifier ∈ specifiers, Import.CountsAsStyled t ⟨file, extensions, specifier⟩) ∧
    p.dependencies = if foreign then [] else [argument]
  warnings : DueWarnings t file extensions argument.source specifiers warnings

theorem exec_isForeign (hname : Path.IsFileName file) (hbare : "." ∉ specifiers)
    (hresolvable : ∀ specifier ∈ specifiers, Import.Resolvable t.toTree ⟨file, extensions, specifier⟩)
    (source : String) :
    (∃ failure, UnansweredAmong t file extensions specifiers failure ∧
      (exec (isForeign t ⟨some file, extensions⟩ source specifiers) []).1 = .error failure) ∨
    ∃ foreign warnings,
      exec (isForeign t ⟨some file, extensions⟩ source specifiers) [] = (.ok foreign, warnings) ∧
      (foreign = false ↔ specifiers = [] ∨
        ∃ specifier ∈ specifiers, Import.CountsAsStyled t ⟨file, extensions, specifier⟩) ∧
      DueWarnings t file extensions source specifiers warnings := by
  cases specifiers with
  | nil => exact .inr ⟨false, [], by simp [isForeign], by simp, [], [], .nil, .nil, rfl⟩
  | cons specifier specifiers =>
      have hself := Import.selfManifest_eq (t := t.toTree) (i := ⟨file, extensions, specifier⟩) hname
      simp only [Import.importer] at hself
      simp only [isForeign, List.isEmpty_cons, Bool.false_eq_true, if_false]
      rw [exec_bind, exec_ownManifest?, hself]
      cases hsearch : findUp? t.toTree (Path.ofString file) manifestName with
      | error fault =>
          exact .inl ⟨_, Import.Unanswered.among (.importing (findUp?_eq_error_iff.1 hsearch)) specifiers, rfl⟩
      | ok own =>
          have hown (manifest : Path) : own = some manifest ↔ Nearest t.toTree (Path.ofString file) manifest := by
            simp [← findUp?_eq_some_iff, hsearch]
          obtain ⟨failure, hunanswered, hexec⟩ | ⟨styled, warnings, hexec, hstyled, hdue⟩ :=
            exec_anyStyled hname hbare hresolvable hown source []
          · exact .inl ⟨failure, hunanswered, exec_bind_fst_of_error hexec⟩
          · refine .inr ⟨!styled, warnings, ?_, ?_, hdue⟩
            · simp only [Except.mapError, exec_bind, hexec, exec_pure, List.nil_append]
            rw [← hstyled]
            cases styled <;> simp

end Specifiers

/-- A name that is imported refers to a styled component if and only if one of the specifiers counts as
styled; the call site then depends on it. If that is not settled, the system or the matcher has refused to
answer about a specifier before any that counts as styled. -/
theorem create_classified {t : Host} {s : SiteContext} {file name source : String} {specifiers : List String}
    (callee : Script.Node) (template : Template) (hfile : s.filename = some file)
    (hname : Path.IsFileName file) (hbare : "." ∉ specifiers)
    (hresolvable : ∀ specifier ∈ specifiers,
      Import.Resolvable t.toTree ⟨file, s.options.extensions, specifier⟩) :
    (∃ p warnings, Processor.create t s [.callee callee,
        .call [⟨source, .identifier name, .lazy specifiers⟩], .template template] = (.ok p, warnings) ∧
      Classified t file s.options.extensions specifiers name
        ⟨source, .identifier name, .lazy specifiers⟩ p warnings) ∨
    ∃ failure, UnansweredAmong t file s.options.extensions specifiers failure ∧
      (Processor.create t s [.callee callee,
        .call [⟨source, .identifier name, .lazy specifiers⟩], .template template]).1 =
          .error (.failed failure) := by
  have himporter : s.importer = ⟨some file, s.options.extensions⟩ := by rw [SiteContext.importer, hfile]
  rw [Processor.create_operation (.inl rfl)]
  obtain ⟨failure, hunanswered, hexec⟩ | ⟨foreign, warnings, hexec, hforeign, hdue⟩ :=
    exec_isForeign hname hbare hresolvable source
  · rw [← himporter] at hexec
    have hcomponent : ((componentOf t s (.call [⟨source, .identifier name, .lazy specifiers⟩])).run.run []).1 =
        .error failure := exec_componentOf_of_isForeign hexec
    exact .inr ⟨failure, hunanswered, by rw [hcomponent]⟩
  · have hcomponent : exec (componentOf t s (.call [⟨source, .identifier name, .lazy specifiers⟩])) [] =
        (.ok (.reference name source foreign,
          if foreign then [] else [⟨source, .identifier name, .lazy specifiers⟩]), warnings) := by
      simp only [componentOf, himporter, exec_bind, hexec]
      cases foreign <;> rfl
    rw [exec] at hcomponent
    rw [hcomponent]
    exact .inl ⟨_, warnings, rfl, ⟨foreign, rfl, hforeign, rfl⟩, hdue⟩

def packages : Host where
  entries := [
    (["app", "package.json"], .file "\x7b\"linaria\": \x7b\"components\": \"lib/**\"\x7d\x7d".toUTF8.toList),
    (["app", "node_modules", "broken", "package.json"], .file "\x7bnot json".toUTF8.toList),
    (["app", "node_modules", "broken", "index.js"], .file []),
    (["app", "node_modules", "kit", "package.json"],
      .file "\x7b\"linaria\": \x7b\"components\": \"src/**/*.js\"\x7d\x7d".toUTF8.toList),
    (["app", "node_modules", "kit", "src", "Card.js"], .file []),
    (["app", "node_modules", "kit", "old", "Card.js"], .file []),
    (["app", "node_modules", "plain", "index.js"], .file [])]

def importingFile : String := "/app/src/App.js"

def cardSite (specifiers : List String) : List Param :=
  [.callee (.identifier "styled"), .call [⟨"Card", .identifier "Card", .lazy specifiers⟩],
    .template ⟨"color: red;", [], none⟩]

def createCard (specifiers : List String) : Except CreationError Processor × List Warning :=
  Processor.create packages ⟨"Box", 0, {}, some importingFile, none⟩ (cardSite specifiers)

def cardSpecifiers : List String := ["./Missing", "broken", "kit/old/Card", "kit/src/Card", "plain"]

theorem ambiguousCard_classified :
    Path.IsFileName importingFile ∧ "." ∉ cardSpecifiers ∧
      (∀ specifier ∈ cardSpecifiers,
        Import.Resolvable packages.toTree ⟨importingFile, defaultExtensions, specifier⟩) ∧
      (∃ p warnings, createCard cardSpecifiers = (.ok p, warnings) ∧ p.dependencies.length = 1 ∧
        warnings.map Warning.code = ["unresolved-import", "invalid-manifest"] ∧
        Classified packages importingFile defaultExtensions cardSpecifiers "Card"
          ⟨"Card", .identifier "Card", .lazy cardSpecifiers⟩ p warnings) ∧
      ¬ Import.CountsAsStyled packages ⟨importingFile, defaultExtensions, "kit/old/Card"⟩ := by
  have hname : Path.IsFileName importingFile := ⟨by decide, by decide, by decide⟩
  have hresolvable : ∀ specifier ∈ cardSpecifiers,
      Import.Resolvable packages.toTree ⟨importingFile, defaultExtensions, specifier⟩ := by
    decide +kernel
  have hsettled (specifiers : List String) (hamong : specifiers ⊆ cardSpecifiers)
      (hok : (createCard specifiers).1.toOption.isSome) : ∃ p warnings, createCard specifiers = (.ok p, warnings) ∧
        Classified packages importingFile defaultExtensions specifiers "Card"
          ⟨"Card", .identifier "Card", .lazy specifiers⟩ p warnings := by
    have hbare : "." ∉ specifiers := fun hmem => absurd (hamong hmem) (by decide)
    refine (create_classified (.identifier "styled") ⟨"color: red;", [], none⟩ rfl hname hbare
      fun specifier hmem => hresolvable specifier (hamong hmem)).resolve_right ?_
    rintro ⟨failure, -, hfails⟩
    rw [show (createCard specifiers).1 = .error (.failed failure) from hfails] at hok
    simp [Except.toOption] at hok
  obtain ⟨p, warnings, hcreate, hclassified⟩ := hsettled cardSpecifiers (List.Subset.refl _) (by decide +kernel)
  obtain ⟨p', warnings', hcreate', ⟨foreign, -, hstyled, hdependencies⟩, -⟩ :=
    hsettled ["kit/old/Card"] (by decide) (by decide +kernel)
  have hfacts : (createCard cardSpecifiers).1.toOption.map (·.dependencies.length) = some 1 ∧
      (createCard cardSpecifiers).2.map Warning.code = ["unresolved-import", "invalid-manifest"] ∧
      (createCard ["kit/old/Card"]).1.toOption.map (·.dependencies.length) = some 0 := by
    decide +kernel
  rw [hcreate, hcreate'] at hfacts
  obtain ⟨hlength, hcodes, hnone⟩ := hfacts
  refine ⟨hname, by decide, hresolvable, ⟨p, warnings, hcreate, Option.some.inj hlength, hcodes, hclassified⟩,
    fun hcounts => ?_⟩
  obtain rfl := hstyled.2 (.inr ⟨_, List.mem_singleton_self _, hcounts⟩)
  simp [Except.toOption, hdependencies] at hnone

end Styled

end CssExtract
