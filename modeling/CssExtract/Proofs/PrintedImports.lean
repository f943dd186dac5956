import CssExtract.Proofs.ImportClauses

namespace CssExtract.Script

open Text

def asWord : List Char := ['a', 's']

structure ImportName where
  text : List Char
  isName : IsName text
  isFree : text ∉ [typeWord, fromWord, asWord]

structure NamedImport where
  marked : Bool
  name : ImportName
  renamed : Option ImportName

/-- What is imported; in front of a namespace or braces there may be a default name. -/
inductive ImportClause
  | default (name : ImportName)
  | all (first : Option ImportName) (name : ImportName)
  | named (first : Option ImportName) (bindings : List NamedImport)

structure ImportDeclaration where
  marked : Bool
  clause : ImportClause
  quote : Char
  source : List Char
  isQuote : isQuote quote = true
  given : source ≠ []
  plain : ∀ c ∈ source, Script.isQuote c = false ∧ c ≠ '('

def aliasText : Option ImportName → List Char
  | none => []
  | some name => ' ' :: (asWord ++ ' ' :: name.text)

def NamedImport.text (b : NamedImport) : List Char := marker b.marked ++ (b.name.text ++ aliasText b.renamed)

def braced : List NamedImport → List Char
  | [] => []
  | bindings => ' ' :: commaSeparated (bindings.map NamedImport.text) ++ [' ']

def afterFirst (first : Option ImportName) (s : List Char) : List Char :=
  match first with
  | none => s
  | some name => name.text ++ ',' :: ' ' :: s

def ImportClause.text : ImportClause → List Char
  | default name => name.text
  | all first name => afterFirst first ('*' :: aliasText (some name))
  | named first bindings => afterFirst first ('{' :: (braced bindings ++ ['}']))

def ImportDeclaration.text (d : ImportDeclaration) : List Char :=
  declarationText d.marked d.clause.text d.quote d.source

def importsText (declarations : List ImportDeclaration) : List Char :=
  [';', '\n'].intercalate (declarations.map ImportDeclaration.text)

def NamedImport.localName (b : NamedImport) : ImportName := b.renamed.getD b.name

/-- The local names of a clause, those in braces first. -/
def ImportClause.localNames : ImportClause → List ImportName
  | default name => [name]
  | all first name => first.toList ++ [name]
  | named first bindings => bindings.map NamedImport.localName ++ first.toList

def ImportDeclaration.bindings (d : ImportDeclaration) : List (String × String) :=
  d.clause.localNames.map fun name => (String.ofList name.text, String.ofList d.source)

variable {a b r s t w : List Char} {c : Char} {name : ImportName}

namespace ImportName

theorem solid (name : ImportName) : ∀ c ∈ name.text, isBlank c = false :=
  fun c hc => not_isBlank_of_isAsciiNamePart (name.isName.all c hc)

theorem ne_nil (name : ImportName) : name.text ≠ [] := by
  obtain ⟨c, t, h, -⟩ := name.isName
  simp [h]

theorem notMem (name : ImportName) (hc : isAsciiNamePart c = false) : c ∉ name.text :=
  fun hmem => by simp [name.isName.all c hmem] at hc

theorem clauseWord (name : ImportName) : ClauseWord name.text where
  ne_nil := name.ne_nil
  ne_from h := name.isFree (by simp [h])
  parts c hc := by
    have hpart := name.isName.all c hc
    simp only [isAsciiNamePart, Bool.or_eq_true, decide_eq_true_eq] at hpart
    rcases hpart with hpart | rfl
    · simp [isClausePart, isNamePart, isWord, hpart]
    · decide
  solid := name.solid

end ImportName

theorem clauseWord_asWord : ClauseWord asWord := clauseWord_of_all (by decide) (by decide) (by decide)

theorem clauseWord_typeWord : ClauseWord typeWord := clauseWord_of_all (by decide) (by decide) (by decide)

theorem worded_star : Worded ['*'] := .last (clauseWord_of_all (by decide) (by decide) (by decide))

theorem worded_name (name : ImportName) : Worded name.text := .last name.clauseWord

theorem Worded.aliasText (ha : Worded a) (renamed : Option ImportName) : Worded (a ++ aliasText renamed) := by
  cases renamed with
  | none => rwa [Script.aliasText, List.append_nil]
  | some name => exact ha.append (.more clauseWord_asWord (worded_name name))

theorem NamedImport.worded (b : NamedImport) : Worded b.text := by
  have hrest := (worded_name b.name).aliasText b.renamed
  rw [text, marker]
  split_ifs
  · rw [List.append_assoc]
    exact .more clauseWord_typeWord hrest
  · exact hrest

theorem commaSeparated_cons (a b : List Char) (l : List (List Char)) :
    commaSeparated (a :: b :: l) = a ++ ',' :: ' ' :: commaSeparated (b :: l) := by
  simp [commaSeparated]

theorem worded_commaSeparated {l : List (List Char)} (hl : ∀ a ∈ l, Worded a) (hne : l ≠ []) :
    Worded (commaSeparated l) := by
  induction l with
  | nil => exact absurd rfl hne
  | cons a l ih =>
      obtain ⟨ha, hl⟩ := List.forall_mem_cons.1 hl
      cases l with
      | nil => simpa [commaSeparated] using ha
      | cons b l =>
          rw [commaSeparated_cons, List.append_cons]
          exact ha.comma.append (ih hl (by simp))

theorem worded_braced (bindings : List NamedImport) : Worded ('{' :: (braced bindings ++ ['}'])) := by
  have hword {w : List Char} (hw : w ∈ [['{'], ['}'], ['{', '}']]) : Worded w := by
    simp only [List.mem_cons, List.not_mem_nil, or_false] at hw
    rcases hw with rfl | rfl | rfl <;> exact .last (clauseWord_of_all (by decide) (by decide) (by decide))
  cases bindings with
  | nil => exact hword (by simp [braced])
  | cons b bindings =>
      have hmiddle : Worded (commaSeparated ((b :: bindings).map NamedImport.text)) :=
        worded_commaSeparated (by simpa using ⟨b.worded, fun b _ => b.worded⟩) (by simp)
      have htext : '{' :: (braced (b :: bindings) ++ ['}']) =
          ['{'] ++ ' ' :: (commaSeparated ((b :: bindings).map NamedImport.text) ++ ' ' :: ['}']) := by
        simp [braced]
      rw [htext]
      exact (hword (by simp)).append (hmiddle.append (hword (by simp)))

theorem worded_afterFirst (first : Option ImportName) (ha : Worded a) : Worded (afterFirst first a) := by
  cases first with
  | none => exact ha
  | some name =>
      rw [afterFirst, List.append_cons]
      exact (worded_name name).comma.append ha

theorem ImportClause.worded (clause : ImportClause) : Worded clause.text := by
  cases clause with
  | default name => exact worded_name name
  | all first name =>
      exact worded_afterFirst first (worded_star.aliasText (some name))
  | named first bindings => exact worded_afterFirst first (worded_braced bindings)

theorem firstWord_eq_self (h : ∀ c ∈ a, isBlank c = false) : firstWord a = a :=
  List.takeWhile_eq_self_iff.2 (by simpa using h)

theorem firstWord_afterFirst_ne (first : Option ImportName) (ha : firstWord a ≠ typeWord) :
    firstWord (afterFirst first a) ≠ typeWord := by
  cases first with
  | none => exact ha
  | some name =>
      have hfirst : firstWord (afterFirst (some name) a) = name.text ++ [','] := by
        rw [afterFirst, List.append_cons]
        exact firstWord_append (List.forall_mem_append.2 ⟨name.solid, List.forall_mem_singleton.2 rfl⟩) a
      rw [hfirst]
      intro h
      have hlast := congrArg List.getLast? h
      rw [List.getLast?_concat] at hlast
      exact absurd hlast (by decide)

/-- No clause starts with a marker. -/
theorem ImportClause.firstWord_ne (clause : ImportClause) : firstWord clause.text ≠ typeWord := by
  cases clause with
  | default name =>
      rw [text, firstWord_eq_self name.solid]
      intro h
      exact name.isFree (by simp [h])
  | all first name =>
      refine firstWord_afterFirst_ne first ?_
      have hfirst : firstWord (['*'] ++ ' ' :: (asWord ++ ' ' :: name.text)) = ['*'] :=
        firstWord_append (List.forall_mem_singleton.2 rfl) _
      exact fun h => absurd (hfirst.symm.trans h) (by decide)
  | named first bindings =>
      refine firstWord_afterFirst_ne first fun h => ?_
      have hhead : (firstWord ('{' :: (braced bindings ++ ['}']))).head? = some '{' := rfl
      rw [h] at hhead
      exact absurd hhead (by decide)

namespace ImportDeclaration

theorem notMem_text (d : ImportDeclaration) : '(' ∉ d.text := by
  have hclause : '(' ∉ d.clause.text := fun h => absurd (d.clause.worded.parts _ h) (by decide)
  have hsource : '(' ∉ d.source := fun h => (d.plain _ h).2 rfl
  have hquote : '(' ≠ d.quote := fun h => absurd (h ▸ d.isQuote) (by decide)
  have hmarker : '(' ∉ marker d.marked := by
    cases d.marked <;> decide
  have hwords : '(' ∉ importWord ∧ '(' ∉ fromWord := by decide
  simp [text, declarationText, fromText, hclause, hsource, hquote, hmarker, hwords]

theorem import?_text (d : ImportDeclaration) {previous : Option Char} (hprevious : previous.any isWord = false)
    (r : List Char) :
    (import? previous (d.text ++ r)) = some ((d.clause.text, d.source), d.text.length) :=
  (import?_declarationText d.isQuote d.given (fun c hc => (d.plain c hc).1) d.clause.worded
    d.clause.firstWord_ne d.marked hprevious r)

end ImportDeclaration

theorem importsText_cons (d d' : ImportDeclaration) (ds : List ImportDeclaration) :
    importsText (d :: d' :: ds) = d.text ++ ';' :: '\n' :: importsText (d' :: ds) := by
  simp [importsText]

theorem notMem_importsText (ds : List ImportDeclaration) : '(' ∉ importsText ds := by
  induction ds with
  | nil => simp [importsText]
  | cons d ds ih =>
      cases ds with
      | nil => simpa [importsText] using d.notMem_text
      | cons d' ds =>
          rw [importsText_cons]
          simp [d.notMem_text, ih]

theorem matchesFrom_importsText (ds : List ImportDeclaration) {previous : Option Char}
    (hprevious : previous.any isWord = false) :
    matchesFrom import? previous 0 (importsText ds) = ds.map fun d => (d.clause.text, d.source) := by
  induction ds generalizing previous with
  | nil => rfl
  | cons d ds ih =>
      have hmatch (r : List Char) : ∃ last, matchesFrom import? previous 0 (d.text ++ r) =
          (d.clause.text, d.source) :: matchesFrom import? last 0 r := by
        have hd := d.import?_text hprevious r
        obtain ⟨c, a, htext⟩ : ∃ c a, d.text = c :: a := ⟨_, _, rfl⟩
        rw [htext] at hd ⊢
        exact ⟨_, matchesFrom_match hd⟩
      cases ds with
      | nil =>
          obtain ⟨last, hlast⟩ := hmatch []
          simpa [importsText, matchesFrom] using hlast
      | cons d' ds =>
          obtain ⟨last, hlast⟩ := hmatch (';' :: '\n' :: importsText (d' :: ds))
          -- neither the semicolon nor the line break starts a match
          rw [importsText_cons, hlast, matchesFrom, import?_of_ne (by decide), matchesFrom,
            (import?_of_ne (by decide) _ _)]
          simp only
          rw [ih (by decide)]
          rfl

end CssExtract.Script
