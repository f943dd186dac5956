import CssExtract.Proofs.HeadAgreement
import CssExtract.Proofs.PrintedImports
import CssExtract.Proofs.Reference
import CssExtract.Proofs.VariableIds

namespace CssExtract.Script

open Text

variable {a b r s w : List Char} {c : Char}

theorem Worded.getLast (ha : Worded a) : ∀ c ∈ a.getLast?, isBlank c = false := by
  induction ha with
  | last hw => exact fun c hc => hw.solid c (List.mem_of_mem_getLast? hc)
  | @more w a _ ha ih =>
      obtain ⟨c, a, rfl, -⟩ := ha.exists_cons
      simpa [List.getLast?_append, List.getLast?_cons_cons] using ih

theorem Worded.trim_blanks (ha : Worded a) (hr : ∀ c ∈ r, isBlank c = true) (hs : ∀ c ∈ s, isBlank c = true) :
    trim (r ++ (a ++ s)) = a := by
  obtain ⟨c, b, rfl, hc⟩ := ha.exists_cons
  rw [trim, trimStart_append hr (by simpa using hc), trimEnd_append ha.getLast hs]

theorem Worded.trim_eq (ha : Worded a) : trim a = a := by
  simpa using ha.trim_blanks (r := []) (s := []) (by simp) (by simp)

theorem afterFirst?_append {k : List Char} (hw : ' ' ∉ w) (s : List Char) :
    afterFirst? (' ' :: k) (w ++ s) = afterFirst? (' ' :: k) s := by
  induction w with
  | nil => rfl
  | cons c w ih =>
      rw [List.mem_cons, not_or] at hw
      rw [List.cons_append, afterFirst?, after?, if_neg hw.1, Option.none_or, ih hw.2]

theorem afterFirst?_of_notMem {k : List Char} (hw : ' ' ∉ w) : afterFirst? (' ' :: k) w = none := by
  simpa [afterFirst?, after?] using afterFirst?_append (k := k) hw []

theorem asText : " as ".toList = ' ' :: (asWord ++ [' ']) := rfl

theorem afterFirst?_as (s : List Char) : afterFirst? " as ".toList (' ' :: (asWord ++ ' ' :: s)) = some s := by
  have hafter : after? " as ".toList (' ' :: (asWord ++ ' ' :: s)) = some s := after?_eq_some_iff.2 rfl
  rw [afterFirst?, hafter, Option.some_or]

theorem afterFirst?_blank (h : ∀ r, s ≠ asWord ++ ' ' :: r) :
    afterFirst? " as ".toList (' ' :: s) = afterFirst? " as ".toList s := by
  have hafter : after? " as ".toList (' ' :: s) = none := by
    cases hrest : after? " as ".toList (' ' :: s) with
    | none => rfl
    | some r => exact absurd (List.cons.inj (after?_eq_some_iff.1 hrest)).2 (h r)
  rw [afterFirst?, hafter, Option.none_or]

theorem afterFirst?_aliasText (name : ImportName) (renamed : Option ImportName) :
    afterFirst? " as ".toList (name.text ++ aliasText renamed) = renamed.map ImportName.text := by
  cases renamed with
  | none =>
      rw [aliasText, List.append_nil, asText]
      exact afterFirst?_of_notMem (name.notMem (by decide))
  | some other =>
      rw [asText, afterFirst?_append (name.notMem (by decide)), ← asText]
      exact afterFirst?_as other.text

/-- A name after a marker is not taken for the keyword. -/
theorem afterFirst?_text (b : NamedImport) :
    afterFirst? " as ".toList b.text = b.renamed.map ImportName.text := by
  have hblank (r : List Char) : b.name.text ++ aliasText b.renamed ≠ asWord ++ ' ' :: r := by
    have hfirst : firstWord (b.name.text ++ aliasText b.renamed) = b.name.text := by
      cases b.renamed with
      | none => rw [aliasText, List.append_nil, firstWord_eq_self b.name.solid]
      | some other => exact firstWord_append b.name.solid _
    intro h
    rw [h, firstWord_append clauseWord_asWord.solid] at hfirst
    exact b.name.isFree (by simp [← hfirst])
  rw [NamedImport.text, marker]
  split_ifs
  · rw [List.append_assoc, List.singleton_append, asText, afterFirst?_append (by decide), ← asText,
      afterFirst?_blank hblank, afterFirst?_aliasText]
  · rw [List.nil_append, afterFirst?_aliasText]

/-- What is recognised as the local name of a part in braces. -/
def boundName (part : List Char) : List Char :=
  let name := ((afterFirst? " as ".toList part).map trim).getD part
  ((after? "type ".toList name).map trim).getD name

theorem bindingNames_eq {body : List Char} {parts : List (List Char)}
    (hparts : (splitOn ',' body).map trim = parts) (hne : ∀ part ∈ parts, part ≠ []) :
    bindingNames " as ".toList body = parts.map boundName := by
  rw [bindingNames, hparts, ← List.filterMap_eq_map]
  refine List.filterMap_congr fun part hpart => ?_
  rw [if_neg (by simpa using hne part hpart)]
  rfl

theorem after?_type_name (name : ImportName) : after? "type ".toList name.text = none := by
  cases hrest : after? "type ".toList name.text with
  | none => rfl
  | some r =>
      have hmem : ' ' ∈ name.text := by
        rw [after?_eq_some_iff.1 hrest]
        exact List.mem_append_left r (by decide)
      exact absurd hmem (name.notMem (by decide))

theorem boundName_text (b : NamedImport) : boundName b.text = b.localName.text := by
  rw [boundName, afterFirst?_text, NamedImport.localName]
  cases hrenamed : b.renamed with
  | some name =>
      simp only [Option.map_some, Option.getD_some, (worded_name name).trim_eq, after?_type_name,
        Option.map_none, Option.getD_none]
  | none =>
      rw [Option.map_none, Option.map_none, Option.getD_none, Option.getD_none, NamedImport.text, hrenamed,
        aliasText, List.append_nil]
      cases b.marked with
      | false =>
          rw [marker, if_neg Bool.false_ne_true, List.nil_append, after?_type_name, Option.map_none,
            Option.getD_none]
      | true =>
          have hafter : after? "type ".toList (marker true ++ b.name.text) = some b.name.text :=
            after?_eq_some_iff.2 rfl
          rw [hafter, Option.map_some, Option.getD_some, (worded_name b.name).trim_eq]

theorem notMem_aliasText (hc : c ∉ ' ' :: asWord) (hpart : isAsciiNamePart c = false) (renamed : Option ImportName) :
    c ∉ aliasText renamed := by
  cases renamed with
  | none => simp [aliasText]
  | some name =>
      rw [List.mem_cons, not_or] at hc
      simp [aliasText, hc.1, hc.2, name.notMem hpart]

theorem NamedImport.notMem_text (hc : c ∉ ' ' :: asWord) (hmarker : c ∉ typeWord)
    (hpart : isAsciiNamePart c = false) (b : NamedImport) : c ∉ b.text := by
  have hblank : c ≠ ' ' := fun h => hc (by simp [h])
  have hmarker : c ∉ marker b.marked := by
    rw [marker]
    split_ifs <;> simp [hmarker, hblank]
  simp [text, hmarker, b.name.notMem hpart, notMem_aliasText hc hpart]

theorem notMem_commaSeparated {l : List (List Char)} (hc : c ≠ ',' ∧ c ≠ ' ') (hl : ∀ a ∈ l, c ∉ a) :
    c ∉ commaSeparated l := by
  induction l with
  | nil => simp [commaSeparated]
  | cons a l ih =>
      obtain ⟨ha, hl⟩ := List.forall_mem_cons.1 hl
      cases l with
      | nil => simpa [commaSeparated] using ha
      | cons b l =>
          rw [commaSeparated_cons]
          simp [ha, hc.1, hc.2, ih hl]

theorem splitOn_commaSeparated {l : List (List Char)} (hl : ∀ a ∈ l, Worded a) (hcomma : ∀ a ∈ l, ',' ∉ a)
    (hne : l ≠ []) : (splitOn ',' (' ' :: commaSeparated l ++ [' '])).map trim = l := by
  have hblank : ∀ c ∈ [' '], isBlank c = true := List.forall_mem_singleton.2 rfl
  induction l with
  | nil => exact absurd rfl hne
  | cons a l ih =>
      obtain ⟨ha, hl⟩ := List.forall_mem_cons.1 hl
      obtain ⟨hcomma, hrest⟩ := List.forall_mem_cons.1 hcomma
      cases l with
      | nil =>
          have hmem : ',' ∉ [' '] ++ (a ++ [' ']) := by simp [hcomma]
          have htext : ' ' :: commaSeparated [a] ++ [' '] = [' '] ++ (a ++ [' ']) := by simp [commaSeparated]
          rw [htext, splitOn_of_notMem hmem, List.map_singleton, ha.trim_blanks hblank hblank]
      | cons b l =>
          have hmem : ',' ∉ [' '] ++ (a ++ []) := by simp [hcomma]
          have htext : ' ' :: commaSeparated (a :: b :: l) ++ [' '] =
              [' '] ++ (a ++ []) ++ ',' :: (' ' :: commaSeparated (b :: l) ++ [' ']) := by
            simp [commaSeparated_cons]
          rw [htext, splitOn_append, splitOn_of_notMem hmem, List.map_append, ih hl hrest (by simp),
            List.map_singleton, ha.trim_blanks hblank (by simp)]
          rfl

theorem bindingNames_braced (bindings : List NamedImport) :
    bindingNames " as ".toList (braced bindings) = bindings.map (·.localName.text) := by
  have hworded : ∀ a ∈ bindings.map NamedImport.text, Worded a :=
    List.forall_mem_map.2 fun b _ => b.worded
  have hcomma : ∀ a ∈ bindings.map NamedImport.text, ',' ∉ a :=
    List.forall_mem_map.2 fun b _ => b.notMem_text (by decide) (by decide) (by decide)
  have hnil : ∀ a ∈ bindings.map NamedImport.text, a ≠ [] := by
    intro a ha
    obtain ⟨c, a, rfl, -⟩ := (hworded a ha).exists_cons
    simp
  cases bindings with
  | nil => rfl
  | cons b bindings =>
      rw [braced, bindingNames_eq (splitOn_commaSeparated hworded hcomma (by simp)) hnil, List.map_map]
      · exact List.map_congr_left fun b _ => boundName_text b
      · simp

theorem notMem_braced (bindings : List NamedImport) : '}' ∉ braced bindings := by
  cases bindings with
  | nil => simp [braced]
  | cons b bindings =>
      have htexts : '}' ∉ commaSeparated ((b :: bindings).map NamedImport.text) :=
        notMem_commaSeparated (by decide) <|
          List.forall_mem_map.2 fun b _ => b.notMem_text (by decide) (by decide) (by decide)
      simpa [braced] using htexts

theorem cutBraces?_of_notMem (h : '{' ∉ s) : cutBraces? s = none := by
  have hbefore : s.takeWhile (· ≠ '{') = s := by
    refine List.takeWhile_eq_self_iff.2 fun c hc => ?_
    rw [decide_eq_true_eq]
    rintro rfl
    exact h hc
  simp only [cutBraces?, hbefore, List.drop_length]

theorem cutBraces?_append (ha : '{' ∉ a) (hb : '}' ∉ b) (r : List Char) :
    cutBraces? (a ++ '{' :: (b ++ '}' :: r)) = some (a, b, r) := by
  have hne {x : Char} {u : List Char} (hx : x ∉ u) : ∀ c ∈ u, decide (c = x) = false := by
    intro c hc
    rw [decide_eq_false_iff_not]
    rintro rfl
    exact hx hc
  rw [cutBraces?]
  simp only [takeWhile_first (hne ha) (decide_eq_true rfl), List.drop_left,
    takeWhile_first (hne hb) (decide_eq_true rfl)]

def otherParts (clause : List Char) : List (List Char) :=
  ((splitOn ',' clause).map trim).filter (!·.isEmpty)

def otherName (part : List Char) : Except ImportError (List Char) :=
  if part.head? = some '*' then
    match afterFirst? " as ".toList part with
    | some name => .ok (trim name)
    | none => .error .unnamedNamespace
  else .ok part

theorem clauseNames_of_notMem {others : List (List Char)} (h : '{' ∉ a)
    (hothers : (otherParts a).mapM otherName = .ok others) : clauseNames a = .ok others := by
  rw [clauseNames, cutBraces?_of_notMem h]
  change (do let others ← (otherParts a).mapM otherName; .ok ([] ++ others)) = _
  rw [hothers]
  rfl

theorem clauseNames_braces {others : List (List Char)} (ha : '{' ∉ a) (hb : '}' ∉ b)
    (hothers : (otherParts a).mapM otherName = .ok others) :
    clauseNames (a ++ '{' :: (b ++ ['}'])) = .ok (bindingNames " as ".toList b ++ others) := by
  rw [clauseNames, cutBraces?_append ha hb]
  change (do let others ← (otherParts (a ++ [])).mapM otherName; .ok (_ ++ others)) = _
  rw [List.append_nil, hothers]
  rfl

theorem otherParts_afterFirst (first : Option ImportName) (hs : ',' ∉ s) :
    otherParts (afterFirst first s) =
      first.toList.map ImportName.text ++ [trim s].filter (!·.isEmpty) := by
  cases first with
  | none => rw [afterFirst, otherParts, splitOn_of_notMem hs]; rfl
  | some name =>
      have hblank : trim (' ' :: s) = trim s := by
        rw [trim, trimStart, List.dropWhile_cons_of_pos (by decide)]
        rfl
      have hname : ([name.text].filter (!·.isEmpty)) = [name.text] := by simp [name.ne_nil]
      have hmem : ',' ∉ ' ' :: s := by simp [hs]
      rw [afterFirst, otherParts, splitOn_append, splitOn_of_notMem (name.notMem (by decide)),
        splitOn_of_notMem hmem, List.map_append, List.filter_append, List.map_singleton, List.map_singleton,
        hblank, (worded_name name).trim_eq, hname]
      rfl

theorem otherName_name (name : ImportName) : otherName name.text = .ok name.text := by
  have hhead : name.text.head? ≠ some '*' := fun h =>
    absurd (List.mem_of_head? h) (name.notMem (by decide))
  rw [otherName, if_neg hhead]

theorem otherName_star (name : ImportName) : otherName ('*' :: aliasText (some name)) = .ok name.text := by
  have hafter : afterFirst? " as ".toList (['*'] ++ aliasText (some name)) = some name.text := by
    rw [asText, afterFirst?_append (by decide), ← asText]
    exact afterFirst?_as name.text
  rw [List.singleton_append] at hafter
  rw [otherName, List.head?_cons, if_pos rfl, hafter]
  simp only [(worded_name name).trim_eq]

theorem mapM_otherName_afterFirst (first : Option ImportName) {names : List (List Char)} (hs : ',' ∉ s)
    (h : ([trim s].filter (!·.isEmpty)).mapM otherName = .ok names) :
    (otherParts (afterFirst first s)).mapM otherName = .ok (first.toList.map ImportName.text ++ names) := by
  rw [otherParts_afterFirst first hs]
  cases first with
  | none => exact h
  | some name =>
      simp only [Option.toList_some, List.map_singleton, List.singleton_append, List.mapM_cons, otherName_name, h]
      rfl

theorem notMem_afterFirst (hc : c ≠ ',' ∧ c ≠ ' ') (hpart : isAsciiNamePart c = false) (hs : c ∉ s)
    (first : Option ImportName) : c ∉ afterFirst first s := by
  cases first with
  | none => exact hs
  | some name => simp [afterFirst, name.notMem hpart, hc.1, hc.2, hs]

theorem clauseNames_text (clause : ImportClause) :
    clauseNames clause.text = .ok (clause.localNames.map ImportName.text) := by
  have hpart {part name : List Char} (hpart : Worded part) (h : otherName part = .ok name) :
      ([trim part].filter (!·.isEmpty)).mapM otherName = .ok [name] := by
    obtain ⟨c, b, hcons, -⟩ := hpart.exists_cons
    have hkept : ([part].filter (!·.isEmpty)) = [part] := by simp [hcons]
    rw [hpart.trim_eq, hkept, List.mapM_cons, h]
    rfl
  cases clause with
  | default name =>
      exact clauseNames_of_notMem (name.notMem (by decide))
        (mapM_otherName_afterFirst none (name.notMem (by decide)) (hpart (worded_name name) (otherName_name name)))
  | all first name =>
      have hstar : Worded ('*' :: aliasText (some name)) := worded_star.aliasText (some name)
      have hmem {c : Char} (hc : c ∉ '*' :: ' ' :: asWord) (hpart : isAsciiNamePart c = false) :
          c ∉ '*' :: aliasText (some name) := by
        rw [List.mem_cons, not_or] at hc
        exact List.not_mem_cons_of_ne_of_not_mem hc.1 (notMem_aliasText hc.2 hpart (some name))
      rw [ImportClause.text, ImportClause.localNames, List.map_append]
      exact clauseNames_of_notMem (notMem_afterFirst (by decide) (by decide) (hmem (by decide) (by decide)) first)
        (mapM_otherName_afterFirst first (hmem (by decide) (by decide)) (hpart hstar (otherName_star name)))
  | named first bindings =>
      -- without the braces an empty part is left, which counts for no name
      have hothers : (otherParts (afterFirst first [])).mapM otherName =
          .ok (first.toList.map ImportName.text ++ []) :=
        mapM_otherName_afterFirst first (by simp) rfl
      have hbefore : '{' ∉ afterFirst first [] :=
        notMem_afterFirst (by decide) (by decide) (by simp) first
      have htext (s : List Char) : afterFirst first s = afterFirst first [] ++ s := by
        cases first <;> simp [afterFirst]
      rw [List.append_nil] at hothers
      rw [ImportClause.text, ImportClause.localNames, List.map_append, List.map_map, htext]
      exact bindingNames_braced bindings ▸ clauseNames_braces hbefore (notMem_braced bindings) hothers

def specifiers (bindings : List (String × String)) (name : String) : List String :=
  ((bindings.filter (·.1 = name)).map (·.2)).eraseDups

/-- The different names in their order, each with its specifiers in theirs. -/
def collected (bindings : List (String × String)) : Imports :=
  (bindings.map (·.1)).eraseDups.map fun name => (name, specifiers bindings name)

namespace Imports

variable {names : List String} {f : String → List String} {bound source : String}

theorem add_of_notMem (h : bound ∉ names) :
    add bound source (names.map fun n => (n, f n)) = names.map (fun n => (n, f n)) ++ [(bound, [source])] := by
  induction names with
  | nil => rfl
  | cons n names ih =>
      rw [List.mem_cons, not_or] at h
      rw [List.map_cons, add, if_neg (Ne.symm h.1), ih h.2, List.cons_append]

theorem add_of_mem (hnodup : names.Nodup) (h : bound ∈ names) :
    add bound source (names.map fun n => (n, f n)) = names.map fun n =>
      (n, if n = bound then f n ++ (if source ∈ f n then [] else [source]) else f n) := by
  induction names with
  | nil => simp at h
  | cons n names ih =>
      obtain ⟨hn, hnodup⟩ := List.nodup_cons.1 hnodup
      rw [List.map_cons, List.map_cons, add]
      by_cases heq : n = bound
      · subst heq
        -- the name stands only here, so the rest stays as it is
        have hrest : names.map (fun m => (m, f m)) = names.map fun m =>
            (m, if m = n then f m ++ (if source ∈ f m then [] else [source]) else f m) :=
          List.map_congr_left fun m hm => by rw [if_neg (ne_of_mem_of_not_mem hm hn)]
        rw [if_pos rfl, if_pos rfl, ← hrest]
        split_ifs <;> simp
      · rw [if_neg heq, if_neg heq, ih hnodup ((List.mem_cons.1 h).resolve_left (Ne.symm heq))]

end Imports

theorem specifiers_concat (l : List (String × String)) (b : String × String) (name : String) :
    specifiers (l ++ [b]) name =
      if name = b.1 then specifiers l name ++ (if b.2 ∈ specifiers l name then [] else [b.2])
      else specifiers l name := by
  by_cases hname : name = b.1
  · have hfilter : ([b].filter fun b => decide (b.1 = name)) = [b] := by simp [hname]
    rw [if_pos hname, specifiers, List.filter_append, hfilter, List.map_append, List.map_singleton,
      eraseDups_concat]
    simp only [specifiers, List.mem_eraseDups]
  · have hfilter : ([b].filter fun b => decide (b.1 = name)) = [] := by simp [Ne.symm hname]
    rw [if_neg hname, specifiers, List.filter_append, hfilter, List.append_nil, specifiers]

theorem specifiers_of_notMem {l : List (String × String)} {name : String} (h : name ∉ l.map (·.1)) :
    specifiers l name = [] := by
  have hfilter : (l.filter fun b => decide (b.1 = name)) = [] := by
    rw [List.filter_eq_nil_iff]
    intro b hb hname
    exact h (List.mem_map.2 ⟨b, hb, of_decide_eq_true hname⟩)
  rw [specifiers, hfilter]
  rfl

theorem add_collected (l : List (String × String)) (b : String × String) :
    (collected l).add b.1 b.2 = collected (l ++ [b]) := by
  rw [collected, collected, List.map_append, List.map_singleton, eraseDups_concat, List.map_append]
  by_cases hmem : b.1 ∈ l.map (·.1)
  · simp only [if_pos hmem, List.map_nil, List.append_nil, specifiers_concat]
    exact Imports.add_of_mem (nodup_eraseDups _) (List.mem_eraseDups.2 hmem)
  · have hnew : specifiers (l ++ [b]) b.1 = [b.2] := by
      rw [specifiers_concat, if_pos rfl, specifiers_of_notMem hmem]
      rfl
    have hold : (l.map (·.1)).eraseDups.map (fun n => (n, specifiers (l ++ [b]) n)) =
        (l.map (·.1)).eraseDups.map fun n => (n, specifiers l n) := by
      refine List.map_congr_left fun n hn => ?_
      rw [specifiers_concat, if_neg (ne_of_mem_of_not_mem (List.mem_eraseDups.1 hn) hmem)]
    rw [if_neg hmem, List.map_singleton, hnew, hold]
    exact Imports.add_of_notMem (mt List.mem_eraseDups.1 hmem)

theorem collected_eq_foldl (l : List (String × String)) :
    collected l = l.foldl (fun (imports : Imports) b => imports.add b.1 b.2) [] := by
  induction l using List.reverseRecOn with
  | nil => rfl
  | append_singleton l b ih =>
      rw [List.foldl_append, ← ih]
      exact (add_collected l b).symm

theorem addAll_localNames (imports : Imports) (d : ImportDeclaration) :
    imports.addAll (d.clause.localNames.map ImportName.text) d.source =
      d.bindings.foldl (fun (imports : Imports) b => imports.add b.1 b.2) imports := by
  rw [Imports.addAll, ImportDeclaration.bindings, List.foldl_map, List.foldl_map]

theorem mapM_clauseNames (ds : List ImportDeclaration) :
    (ds.map fun d => (d.clause.text, d.source)).mapM
        (fun (clause, source) => (clauseNames clause).map (·, source)) =
      .ok (ds.map fun d => (d.clause.localNames.map ImportName.text, d.source)) := by
  induction ds with
  | nil => rfl
  | cons d ds ih =>
      simp only [List.map_cons, List.mapM_cons, ih, clauseNames_text]
      rfl

/-- The imports of a printed module are the bindings of its declarations, in the order in which the
declarations bind them: every name once, with its different specifiers. -/
theorem parseImports_importsText (ds : List ImportDeclaration) :
    parseImports (importsText ds) = .ok (collected (ds.flatMap ImportDeclaration.bindings)) := by
  have hdeclared : allMatches import? (importsText ds) = ds.map fun d => (d.clause.text, d.source) :=
    matchesFrom_importsText ds rfl
  rw [parseImports, hdeclared, mapM_clauseNames, allMatches_require? (notMem_importsText ds),
    collected_eq_foldl, List.foldl_flatMap]
  change Except.ok ((ds.map _ ++ []).foldl _ _) = _
  rw [List.append_nil, List.foldl_map]
  simp only [addAll_localNames]

example : importsText [⟨true, .all (some ⟨['A'], by decide, by decide⟩) ⟨['u', 'i'], by decide, by decide⟩,
      '\'', ['u', 'i', '-', 'k', 'i', 't'], rfl, by decide, by simp [isQuote]⟩] =
    "import type A, * as ui from 'ui-kit'".toList := rfl

end CssExtract.Script
