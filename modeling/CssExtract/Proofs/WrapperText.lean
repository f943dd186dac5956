import CssExtract.Proofs.CallText
import CssExtract.Proofs.Stages

namespace CssExtract.Styled

open Eval Script Text

variable {p : Processor} {callee : String} {c : Char} {r : List Char}

/-- What a wrapper is printed from is as the scanner and the grammar need it: its callee and the
component that it wraps are names, and its expressions can stand in thunks. -/
structure Processor.Printable (p : Processor) (callee : String) : Prop where
  callee : p.callee = .identifier callee
  reference : ∀ name source foreign, p.component = .reference name source foreign →
    IsName name.toList
  thunks : ∀ i ∈ p.interpolations, ∃ source, i.node = .arrow [] (.raw source) ∧
    Wrappable (trim source.toList)

theorem printEntries_eq_map (level : Nat) (entries : List Property) :
    printEntries level entries = entries.map (·.print level) := by
  induction entries with
  | nil => simp [printEntries]
  | cons entry entries ih => simp [printEntries, ih]

theorem print_tagArgument (p : Processor) : p.tagArgument.print 0 =
    match p.component with
    | .function => "() => {}".toList
    | .tag name => printString '\'' name.toList
    | .reference name _ _ => name.toList := by
  cases h : p.component with
  | function => simp [Processor.tagArgument, h, Node.print, Node.asBody, printAll, printLines,
      commaSeparated, parenthesised]
  | tag name => simp [Processor.tagArgument, h, Node.print]
  | reference name source foreign => simp [Processor.tagArgument, h, Node.print]

theorem Processor.Printable.along_tagArgument (h : p.Printable callee) :
    Along (p.tagArgument.print 0) (')' :: r) := by
  rw [print_tagArgument]
  cases hc : p.component with
  | function => exact along_function
  | tag name => exact along_string rfl _
  | reference name source foreign =>
      exact along_name (h.reference name source foreign hc) (by simp [Ends]; decide)

theorem Processor.Printable.neutral_tagArgument (h : p.Printable callee) :
    Neutral (p.tagArgument.print 0) := by
  rw [print_tagArgument]
  cases hc : p.component with
  | function =>
      exact (solid_arrow.append (solid_braces inner_nil)).neutral
  | tag name => exact (solid_string rfl _).neutral
  | reference name source foreign => exact (h.reference name source foreign hc).neutral

theorem mem_vars {entry : String × List Node} (h : entry ∈ p.vars) :
    ∃ i ∈ p.interpolations, entry.2 =
      .call i.node [] :: (if i.unit.isEmpty then [] else [.quoted i.unit]) := by
  have hfold (l : List Interpolation) (vars : Entries (List Node))
      (h : entry ∈ l.foldl (fun vars i =>
        vars.set i.id (.call i.node [] :: (if i.unit.isEmpty then [] else [.quoted i.unit]))) vars) :
      entry ∈ vars ∨ ∃ i ∈ l, entry.2 =
        .call i.node [] :: (if i.unit.isEmpty then [] else [.quoted i.unit]) := by
    induction l generalizing vars with
    | nil => exact .inl h
    | cons i l ih =>
        rcases ih _ h with hset | ⟨j, hj, hentry⟩
        · rcases Entries.mem_set hset with rfl | hvars
          · exact .inr ⟨i, List.mem_cons_self, rfl⟩
          · exact .inl hvars
        · exact .inr ⟨j, List.mem_cons_of_mem _ hj, hentry⟩
  exact (hfold _ _ h).resolve_left (by simp)

theorem Processor.Printable.inner_nodes (h : p.Printable callee) {entry : String × List Node}
    (hentry : entry ∈ p.vars) (level : Nat) : ∀ x ∈ printAll level entry.2, Inner x := by
  obtain ⟨i, hi, hnodes⟩ := mem_vars hentry
  obtain ⟨source, hnode, hsource⟩ := h.thunks i hi
  have hthunk : Inner ((Node.call i.node []).print level) := by
    rw [hnode]
    exact (solid_thunk hsource level).inner
  rw [hnodes, printAll_eq_map, List.map_cons, List.forall_mem_cons]
  refine ⟨hthunk, fun x hx => ?_⟩
  split_ifs at hx
  · simp at hx
  · obtain rfl : x = (Node.quoted i.unit).print level := by simpa using hx
    rw [print_quoted]
    exact (solid_string rfl _).inner

theorem Processor.Printable.inner_vars (h : p.Printable callee) (level : Nat) :
    Inner ((PropValue.vars p.vars).node.print level) := by
  simp only [PropValue.node, Node.print, printEntries_eq_map]
  refine (solid_lines (fun l hl => ?_) level).inner
  obtain ⟨entry, hentry, rfl⟩ := List.mem_map.1 hl
  obtain ⟨⟨name, nodes⟩, hmem, rfl⟩ := List.mem_map.1 hentry
  simp only [Property.print, Key.print, Node.print]
  have hkey : Solid (printString '"' name.toList ++ [':', ' ']) :=
    (solid_string rfl _).append solid_colon
  simpa using (hkey.append (solid_array (h.inner_nodes hmem (level + 1)))).inner

theorem inner_property {name : String} {value : PropValue} (hname : IsName name.toList) {level : Nat}
    (h : Inner (value.node.print level)) :
    Inner ((Property.mk (.identifier name) value.node).print level) := by
  simp only [Property.print, Key.print]
  simpa using (solid_key hname).append_inner h

theorem inner_text (s : String) (level : Nat) : Inner ((PropValue.text s).node.print level) := by
  rw [PropValue.node, print_quoted]
  exact (solid_string rfl _).inner

theorem inner_bool (b : Bool) (level : Nat) : Inner ((PropValue.bool b).node.print level) := by
  cases b <;> simp only [PropValue.node, Node.print, Bool.false_eq_true, if_true, if_false] <;>
    exact inner_name (by decide +kernel)

theorem Processor.Printable.inner_props (h : p.Printable callee) {level : Nat} {line : List Char}
    (hline : line ∈ p.props.map fun prop => (Property.mk (.identifier prop.1) prop.2.node).print level) :
    Inner line := by
  obtain ⟨⟨name, value⟩, hprop, rfl⟩ := List.mem_map.1 hline
  simp only [Processor.props, List.mem_append, List.mem_cons, List.not_mem_nil, or_false] at hprop
  rcases hprop with (hprop | hprop | hprop) | hprop
  · obtain ⟨rfl, rfl⟩ := Prod.mk.inj hprop
    exact inner_property (show IsName "name".toList by decide +kernel) (inner_text _ _)
  · obtain ⟨rfl, rfl⟩ := Prod.mk.inj hprop
    exact inner_property (show IsName "class".toList by decide +kernel) (inner_text _ _)
  · obtain ⟨rfl, rfl⟩ := Prod.mk.inj hprop
    exact inner_property (show IsName "propsAsIs".toList by decide +kernel) (inner_bool _ _)
  · split_ifs at hprop
    · simp at hprop
    · obtain ⟨rfl, rfl⟩ : name = "vars" ∧ value = .vars p.vars := by simpa using hprop
      exact inner_property (show IsName "vars".toList by decide +kernel) (h.inner_vars _)

theorem Processor.Printable.exists_props (h : p.Printable callee) :
    ∃ x, Inner x ∧ (propsNode p.props).print 0 = '{' :: (x ++ ['}']) := by
  simp only [propsNode, Node.print, printEntries_eq_map, List.map_map]
  exact exists_printLines (fun l hl => h.inner_props hl) 0

theorem Processor.Printable.print_wrapper (h : p.Printable callee) :
    p.wrapper.print 0 = callee.toList ++
      (parenthesised (p.tagArgument.print 0) ++ parenthesised ((propsNode p.props).print 0)) := by
  simp [Processor.wrapper, Processor.tagCall, h.callee, Node.print, Node.asCallee, Node.isCallee,
    printAll, commaSeparated]

theorem Processor.Printable.readHeadText_wrapper (h : p.Printable callee) (hname : IsName callee.toList) :
    ∃ x y, readHeadText (p.wrapper.print 0) = .ok ⟨callee, [.call [x], .call [y]]⟩ := by
  obtain ⟨object, hobject, hprinted⟩ := h.exists_props
  have halong : Along ((propsNode p.props).print 0) [')'] := by
    rw [hprinted]
    exact .group rfl rfl rfl (hobject.within _ _ endsToken_brace)
  obtain ⟨x, y, hread⟩ := readHeadText_calls hname h.along_tagArgument halong
  exact ⟨x, y, by rw [h.print_wrapper, hread, String.ofList_toList]⟩

end CssExtract.Styled
