import CssExtract.Proofs.VariableIds
import Mathlib.Data.List.Nodup
import Mathlib.Tactic.SplitIfs

namespace CssExtract.Styled

open Script (Node)

inductive Event
  | drew (index : Nat)
  | consulted (c : VariableContext)
  | kept (key : String × String) (id : String)

def Event.index? : Event → Option Nat
  | .drew index => some index
  | _ => none

def Event.entry? : Event → Option ((String × String) × String)
  | .kept key id => some (key, id)
  | _ => none

/-- Variables, with what has happened to them. -/
structure Book where
  issued : Variables
  events : List Event := []

namespace Book

def record (event : Event) : StateM Book Unit := modify fun b => { b with events := b.events ++ [event] }

def draw : StateM Book Nat := do
  let b ← get
  let (index, issued) := Variables.allocate.run b.issued
  set { b with issued := issued }
  record (.drew index)
  return index

def keep (key : String × String) (id : String) : StateM Book Unit := do
  modify fun b => { b with issued := { b.issued with ids := b.issued.ids ++ [(key, id)] } }
  record (.kept key id)

def ask : Reading → StateM Book String
  | .done result => pure result
  | .readIndex next => do ask (next (← draw))

def placeholder (c : VariableContext) (name : String) : StateM Book String := do
  if name = "index" then return toString (← draw)
  else return (c.values.get? name).getD ""

def customId (naming : VariableNaming) (c : VariableContext) : StateM Book (Option String) := do
  match naming with
  | .default => return none
  | .pattern text =>
    record (.consulted c)
    return some (← fill (placeholder c) (pieces text))
  | .custom generate =>
    record (.consulted c)
    return some (← ask (generate c))

def idFor (naming : VariableNaming) (c : VariableContext) : StateM Book String := do
  match (← get).issued.ids.lookup (c.source, c.unit) with
  | some id => return id
  | none =>
    match (← customId naming c).filter (!·.isEmpty) with
    | some id => return cssIdentifier id
    | none =>
      let id := numberedId c.componentSlug (← draw)
      keep (c.source, c.unit) id
      return id

end Book

variable {α β : Type}

def drawn (first n : Nat) : List Event := (List.range' first n).map .drew

/-- Both give the same result and use up the same indices, and by the book nothing else happens. -/
def Draws (x : StateM Variables α) (y : StateM Book α) : Prop :=
  ∀ v events, ∃ a n, x.run v = (a, ⟨v.next + n, v.ids⟩) ∧
    y.run ⟨v, events⟩ = (a, ⟨⟨v.next + n, v.ids⟩, events ++ drawn v.next n⟩)

theorem drawn_append (first m n : Nat) : drawn first m ++ drawn (first + m) n = drawn first (m + n) := by
  simp [drawn, ← List.map_append]

theorem Draws.pure (a : α) : Draws (Pure.pure a) (Pure.pure a) :=
  fun _ _ => ⟨a, 0, rfl, by rw [drawn, List.range'_zero, List.map_nil, List.append_nil]; rfl⟩

theorem run_bind_of_run {σ : Type} {x : StateM σ α} {f : α → StateM σ β} {s s' : σ} {a : α}
    (h : x.run s = (a, s')) : (x >>= f).run s = (f a).run s' := by
  rw [StateT.run_bind, h]
  rfl

theorem run_get_bind {σ : Type} (f : σ → StateM σ α) (s : σ) : (get >>= f).run s = (f s).run s := rfl

theorem Draws.bind {x : StateM Variables α} {y : StateM Book α} {f : α → StateM Variables β}
    {g : α → StateM Book β} (h : Draws x y) (hf : ∀ a, Draws (f a) (g a)) :
    Draws (x >>= f) (y >>= g) := by
  intro v events
  obtain ⟨a, n, hx, hy⟩ := h v events
  obtain ⟨b, k, hfa, hga⟩ := hf a ⟨v.next + n, v.ids⟩ (events ++ drawn v.next n)
  refine ⟨b, n + k, ?_, ?_⟩
  · rw [run_bind_of_run hx, hfa, Nat.add_assoc]
  · rw [run_bind_of_run hy, hga, Nat.add_assoc, List.append_assoc, drawn_append]

theorem run_record (event : Event) (b : Book) :
    (Book.record event).run b = ((), { b with events := b.events ++ [event] }) := rfl

theorem draws_draw : Draws Variables.allocate Book.draw := fun _ _ => ⟨_, 1, rfl, rfl⟩

theorem draws_ask (r : Reading) :
    Draws (fun v => ((r.run v.next).1, { v with next := (r.run v.next).2 })) (Book.ask r) := by
  induction r with
  | done result => exact Draws.pure result
  | readIndex next ih => exact Draws.bind draws_draw fun index => ih index

theorem draws_placeholder (c : VariableContext) (name : String) :
    Draws (Variables.placeholder c name) (Book.placeholder c name) := by
  simp only [Variables.placeholder, Book.placeholder]
  split_ifs
  · exact draws_draw.bind fun index => .pure _
  · exact .pure _

theorem draws_fill {f : String → StateM Variables String} {g : String → StateM Book String}
    (h : ∀ name, Draws (f name) (g name)) (l : List Piece) : Draws (fill f l) (fill g l) := by
  induction l with
  | nil => exact .pure ""
  | cons piece l ih =>
      cases piece with
      | literal c => exact ih.bind fun rest => .pure _
      | placeholder name => exact (h name).bind fun text => ih.bind fun rest => .pure _

def consultation (c : VariableContext) : VariableNaming → List Event
  | .default => []
  | _ => [.consulted c]

theorem run_customId (naming : VariableNaming) (c : VariableContext) (v : Variables)
    (events : List Event) : ∃ answer n,
      (Variables.customId naming c).run v = (answer, ⟨v.next + n, v.ids⟩) ∧
        (Book.customId naming c).run ⟨v, events⟩ =
          (answer, ⟨⟨v.next + n, v.ids⟩, events ++ consultation c naming ++ drawn v.next n⟩) ∧
        (naming = .default → answer = none) := by
  cases naming with
  | default => exact ⟨none, 0, rfl, by simp [drawn, consultation]; rfl, fun _ => rfl⟩
  | pattern text =>
      obtain ⟨answer, n, hplain, hbook⟩ :=
        draws_fill (draws_placeholder c) (pieces text) v (events ++ [.consulted c])
      refine ⟨some answer, n, ?_, ?_, by simp⟩
      · simp only [Variables.customId]
        rw [run_bind_of_run hplain]
        rfl
      · simp only [Book.customId]
        rw [run_bind_of_run (run_record ..), run_bind_of_run hbook]
        rfl
  | custom generate =>
      obtain ⟨answer, n, hplain, hbook⟩ := draws_ask (generate c) v (events ++ [.consulted c])
      refine ⟨some answer, n, ?_, ?_, by simp⟩
      · have hcustom : (Variables.customId (.custom generate) c).run v =
            (some ((generate c).run v.next).1, { v with next := ((generate c).run v.next).2 }) := rfl
        obtain ⟨hanswer, hissued⟩ := Prod.mk.inj hplain
        rw [hcustom, hanswer, hissued]
      · simp only [Book.customId]
        rw [run_bind_of_run (run_record ..), run_bind_of_run hbook]
        rfl

/-- How the request for an id can come out. -/
inductive Served (naming : VariableNaming) (c : VariableContext) (b : Book) : String → Book → Prop
  | again {id : String} (old : b.issued.ids.lookup (c.source, c.unit) = some id) :
      Served naming c b id b
  | custom {answer : String} {n : Nat} (new : b.issued.ids.lookup (c.source, c.unit) = none)
      (answered : ((Variables.customId naming c).run b.issued).1 = some answer)
      (given : answer.isEmpty = false) :
      Served naming c b (cssIdentifier answer)
        ⟨⟨b.issued.next + n, b.issued.ids⟩, b.events ++ [.consulted c] ++ drawn b.issued.next n⟩
  | default {n : Nat} (new : b.issued.ids.lookup (c.source, c.unit) = none)
      (empty : ((Variables.customId naming c).run b.issued).1.filter (!·.isEmpty) = none) :
      Served naming c b (numberedId c.componentSlug (b.issued.next + n))
        ⟨⟨b.issued.next + n + 1, b.issued.ids ++
            [((c.source, c.unit), numberedId c.componentSlug (b.issued.next + n))]⟩,
          b.events ++ consultation c naming ++ drawn b.issued.next n ++ [.drew (b.issued.next + n)] ++
            [.kept (c.source, c.unit) (numberedId c.componentSlug (b.issued.next + n))]⟩

theorem run_idFor_served (naming : VariableNaming) (c : VariableContext) (b : Book) :
    ∃ id b', Served naming c b id b' ∧ (Book.idFor naming c).run b = (id, b') ∧
      (Variables.idFor naming c).run b.issued = (id, b'.issued) := by
  obtain ⟨v, events⟩ := b
  cases hold : v.ids.lookup (c.source, c.unit) with
  | some id =>
      refine ⟨id, _, .again hold, ?_, ?_⟩
      · simp only [Book.idFor]
        rw [run_get_bind, hold]
        rfl
      · simp only [Variables.idFor]
        rw [run_get_bind, hold]
        rfl
  | none =>
      obtain ⟨answer, n, hplain, hbook, hnone⟩ := run_customId naming c v events
      have hid : (Variables.idFor naming c).run v = (match answer.filter (!·.isEmpty) with
          | some id => (cssIdentifier id, ⟨v.next + n, v.ids⟩)
          | none => (numberedId c.componentSlug (v.next + n), ⟨v.next + n + 1,
              v.ids ++ [((c.source, c.unit), numberedId c.componentSlug (v.next + n))]⟩)) := by
        simp only [Variables.idFor]
        rw [run_get_bind, hold]
        simp only
        rw [run_bind_of_run hplain]
        cases answer.filter (!·.isEmpty) <;> rfl
      have hidBook : (Book.idFor naming c).run ⟨v, events⟩ = (match answer.filter (!·.isEmpty) with
          | some id => (cssIdentifier id,
              ⟨⟨v.next + n, v.ids⟩, events ++ consultation c naming ++ drawn v.next n⟩)
          | none => (numberedId c.componentSlug (v.next + n),
              ⟨⟨v.next + n + 1, v.ids ++ [((c.source, c.unit), numberedId c.componentSlug (v.next + n))]⟩,
                events ++ consultation c naming ++ drawn v.next n ++ [.drew (v.next + n)] ++
                  [.kept (c.source, c.unit) (numberedId c.componentSlug (v.next + n))]⟩)) := by
        simp only [Book.idFor]
        rw [run_get_bind, hold]
        simp only
        rw [run_bind_of_run hbook]
        cases answer.filter (!·.isEmpty) <;> rfl
      rw [hid, hidBook]
      cases hgiven : answer.filter (!·.isEmpty) with
      | some id =>
          obtain ⟨rfl, hnonempty⟩ := Option.filter_eq_some_iff.1 hgiven
          have hconsulted : consultation c naming = [.consulted c] := by
            cases naming with
            | default => simp at hnone
            | pattern text => rfl
            | custom generate => rfl
          rw [hconsulted]
          refine ⟨_, _, .custom (n := n) hold ?_ (by simpa using hnonempty), rfl, rfl⟩
          rw [hplain]
      | none => exact ⟨_, _, .default (n := n) hold (by rw [hplain, hgiven]), rfl, rfl⟩

/-- The events of a book account for what is issued by it. -/
structure Book.Sound (slug : String) (b : Book) : Prop where
  indices : b.events.filterMap Event.index? = List.range b.issued.next
  entries : b.events.filterMap Event.entry? = b.issued.ids
  numbered : ∀ entry ∈ b.issued.ids, ∃ n < b.issued.next, entry.2 = numberedId slug n
  keys : (b.issued.ids.map (·.1)).Nodup
  ids : (b.issued.ids.map (·.2)).Nodup

theorem indices_drawn (first n : Nat) :
    (drawn first n).filterMap Event.index? = List.range' first n := by
  have h : Event.index? ∘ Event.drew = some := funext fun _ => rfl
  rw [drawn, List.filterMap_map, h, List.filterMap_some]

theorem entries_drawn (first n : Nat) : (drawn first n).filterMap Event.entry? = [] := by
  have h : Event.entry? ∘ Event.drew = fun _ => none := funext fun _ => rfl
  rw [drawn, List.filterMap_map, h]
  simp

theorem indices_consultation (c : VariableContext) (naming : VariableNaming) :
    (consultation c naming).filterMap Event.index? = [] := by
  cases naming <;> rfl

theorem entries_consultation (c : VariableContext) (naming : VariableNaming) :
    (consultation c naming).filterMap Event.entry? = [] := by
  cases naming <;> rfl

theorem range_append_range' (m n : Nat) : List.range m ++ List.range' m n = List.range (m + n) := by
  rw [List.range_eq_range', List.range_eq_range', ← List.range'_append_1, Nat.zero_add]

theorem lookup_eq_some_iff_mem [BEq α] [LawfulBEq α] {l : List (α × β)}
    (hkeys : (l.map (·.1)).Nodup) {key : α} {value : β} :
    l.lookup key = some value ↔ (key, value) ∈ l := by
  induction l with
  | nil => simp
  | cons first l ih =>
      obtain ⟨first, other⟩ := first
      obtain ⟨hfirst, hrest⟩ := List.nodup_cons.1 hkeys
      rw [List.lookup_cons, List.mem_cons]
      by_cases heq : key = first
      · subst heq
        have hnew : (key, value) ∉ l := fun hmem => hfirst (List.mem_map.2 ⟨_, hmem, rfl⟩)
        simp [hnew, eq_comm]
      · simp [heq, beq_eq_false_iff_ne.2 heq, ih hrest]

namespace Book.Sound

variable {slug : String} {b b' : Book}

theorem new (slug : String) : Sound slug ⟨{}, []⟩ where
  indices := rfl
  entries := rfl
  numbered := by simp
  keys := .nil
  ids := .nil

theorem draw (h : b.Sound slug) (c : VariableContext) (naming : VariableNaming) (n : Nat) :
    Sound slug ⟨⟨b.issued.next + n, b.issued.ids⟩,
      b.events ++ consultation c naming ++ drawn b.issued.next n⟩ where
  indices := by
    rw [List.filterMap_append, List.filterMap_append, h.indices, indices_consultation,
      List.append_nil, indices_drawn, range_append_range']
  entries := by
    rw [List.filterMap_append, List.filterMap_append, h.entries, entries_consultation,
      entries_drawn, List.append_nil, List.append_nil]
  numbered entry hentry := by
    obtain ⟨k, hlt, hid⟩ := h.numbered entry hentry
    exact ⟨k, Nat.lt_add_right n hlt, hid⟩
  keys := h.keys
  ids := h.ids

theorem keep (h : b.Sound slug) {key : String × String} (new : b.issued.ids.lookup key = none) :
    Sound slug ⟨⟨b.issued.next + 1, b.issued.ids ++ [(key, numberedId slug b.issued.next)]⟩,
      b.events ++ [.drew b.issued.next] ++ [.kept key (numberedId slug b.issued.next)]⟩ where
  indices := by
    simp [h.indices, List.range_succ, Event.index?]
  entries := by
    simp [h.entries, Event.entry?, List.filterMap_cons]
  numbered entry hentry := by
    rcases List.mem_append.1 hentry with hold | hnew
    · obtain ⟨n, hlt, hid⟩ := h.numbered entry hold
      exact ⟨n, Nat.lt_succ_of_lt hlt, hid⟩
    · obtain rfl := List.mem_singleton.1 hnew
      exact ⟨b.issued.next, Nat.lt_succ_self _, rfl⟩
  keys := by
    have hnew : key ∉ b.issued.ids.map (·.1) := by
      intro hmem
      obtain ⟨entry, hentry, rfl⟩ := List.mem_map.1 hmem
      exact absurd (List.lookup_eq_none_iff.1 new entry hentry) (by simp)
    rw [List.map_append]
    exact List.nodup_append.2 ⟨h.keys, by simp, by rintro x hx y hy rfl; exact hnew (by simp_all)⟩
  ids := by
    have hnew : numberedId slug b.issued.next ∉ b.issued.ids.map (·.2) := by
      intro hmem
      obtain ⟨entry, hentry, heq⟩ := List.mem_map.1 hmem
      obtain ⟨n, hlt, hid⟩ := h.numbered entry hentry
      exact absurd (numberedId_inj.1 (hid.symm.trans heq)) (Nat.ne_of_lt hlt)
    rw [List.map_append]
    exact List.nodup_append.2 ⟨h.ids, by simp, by rintro x hx y hy rfl; exact hnew (by simp_all)⟩

theorem served {naming : VariableNaming} {c : VariableContext} {id : String}
    (h : b.Sound c.componentSlug) (hserved : Served naming c b id b') : b'.Sound c.componentSlug := by
  cases hserved with
  | again old => exact h
  | custom new answered given => exact h.draw c (.pattern "") _
  | default new empty => exact (h.draw c naming _).keep new

theorem kept_mem_iff (h : b.Sound slug) {key : String × String} {id : String} :
    .kept key id ∈ b.events ↔ b.issued.ids.lookup key = some id := by
  rw [lookup_eq_some_iff_mem h.keys, ← h.entries, List.mem_filterMap]
  constructor
  · intro hmem
    exact ⟨_, hmem, rfl⟩
  · rintro ⟨event, hmem, hentry⟩
    cases event with
    | drew index => simp [Event.entry?] at hentry
    | consulted c => simp [Event.entry?] at hentry
    | kept key' id' =>
        obtain ⟨rfl, rfl⟩ : key' = key ∧ id' = id := by simpa [Event.entry?] using hentry
        exact hmem

theorem drew_mem_iff (h : b.Sound slug) {n : Nat} : .drew n ∈ b.events ↔ n < b.issued.next := by
  rw [← List.mem_range, ← h.indices, List.mem_filterMap]
  constructor
  · intro hmem
    exact ⟨_, hmem, rfl⟩
  · rintro ⟨event, hmem, hindex⟩
    cases event with
    | drew index => exact Option.some.inj hindex ▸ hmem
    | consulted c => simp [Event.index?] at hindex
    | kept key id => simp [Event.index?] at hindex

theorem id_eq_iff (h : b.Sound slug) {key key' : String × String} {id id' : String}
    (hkept : .kept key id ∈ b.events) (hkept' : .kept key' id' ∈ b.events) :
    id = id' ↔ key = key' := by
  rw [h.kept_mem_iff, lookup_eq_some_iff_mem h.keys] at hkept hkept'
  constructor
  · rintro rfl
    exact congrArg Prod.fst (List.inj_on_of_nodup_map h.ids hkept hkept' rfl)
  · rintro rfl
    exact congrArg Prod.snd (List.inj_on_of_nodup_map h.keys hkept hkept' rfl)

end Book.Sound

inductive Request
  | index
  | id (source unit precedingCss : String)
  | interpolation (node : Node) (precedingCss source unit : String)

inductive Reply
  | index (index : Nat)
  | id (id : String)
deriving DecidableEq

def Request.key? : Request → Option (String × String)
  | .index => none
  | .id source unit _ => some (source, unit)
  | .interpolation _ _ source unit => some (source, unit)

def Request.precedingCss : Request → String
  | .index => ""
  | .id _ _ precedingCss => precedingCss
  | .interpolation _ precedingCss _ _ => precedingCss

/-- A request, with the naming of the project at that time: a function of a project may act on
what it was asked before. -/
structure Call where
  naming : VariableNaming
  request : Request

namespace Processor

variable (p : Processor)

def perform (call : Call) : Reply × Processor :=
  let p := { p with options := { p.options with variableNaming := call.naming } }
  match call.request with
  | .index =>
    let (index, p) := p.allocateIndex
    (.index index, p)
  | .id source unit precedingCss =>
    let (id, p) := p.variableId source unit precedingCss
    (.id id, p)
  | .interpolation node precedingCss source unit =>
    let (id, p) := p.addInterpolation node precedingCss source unit
    (.id id, p)

def performAll (p : Processor) : List Call → List Reply × Processor
  | [] => ([], p)
  | call :: calls =>
    let (reply, p) := p.perform call
    let (replies, p) := p.performAll calls
    (reply :: replies, p)

def contextOf (call : Call) (key : String × String) : VariableContext :=
  p.context key.1 key.2 call.request.precedingCss

def serve (call : Call) : StateM Book Reply := do
  match call.request.key? with
  | none => return .index (← Book.draw)
  | some key => return .id (← Book.idFor call.naming (p.contextOf call key))

def book (calls : List Call) : List Reply × Book := (calls.mapM p.serve).run ⟨p.issued, []⟩

variable {p}

theorem perform_of_key? {call : Call} {key : String × String} (hkey : call.request.key? = some key)
    {id : String} {issued : Variables}
    (hid : (Variables.idFor call.naming (p.contextOf call key)).run p.issued = (id, issued)) :
    (p.perform call).1 = .id id ∧ (p.perform call).2.issued = issued := by
  obtain ⟨naming, request⟩ := call
  cases request with
  | index => simp [Request.key?] at hkey
  | id source unit precedingCss =>
      obtain rfl := Option.some.inj hkey
      exact ⟨congrArg (fun r : String × Variables => Reply.id r.1) hid, congrArg Prod.snd hid⟩
  | interpolation node precedingCss source unit =>
      obtain rfl := Option.some.inj hkey
      exact ⟨congrArg (fun r : String × Variables => Reply.id r.1) hid, congrArg Prod.snd hid⟩

theorem perform_index {call : Call} (hkey : call.request.key? = none) :
    (p.perform call).1 = .index p.issued.next ∧
      (p.perform call).2.issued = ⟨p.issued.next + 1, p.issued.ids⟩ := by
  obtain ⟨naming, request⟩ := call
  cases request with
  | index => exact ⟨rfl, rfl⟩
  | id source unit precedingCss => simp [Request.key?] at hkey
  | interpolation node precedingCss source unit => simp [Request.key?] at hkey

inductive Answered (p : Processor) (call : Call) (b : Book) : Reply → Book → Prop
  | index (hkey : call.request.key? = none) :
      Answered p call b (.index b.issued.next)
        ⟨⟨b.issued.next + 1, b.issued.ids⟩, b.events ++ [.drew b.issued.next]⟩
  | id {key : String × String} {id : String} {b' : Book} (hkey : call.request.key? = some key)
      (served : Served call.naming (p.contextOf call key) b id b') : Answered p call b (.id id) b'

theorem run_serve (call : Call) (events : List Event) :
    ∃ b', Answered p call ⟨p.issued, events⟩ (p.perform call).1 b' ∧
      (p.serve call).run ⟨p.issued, events⟩ = ((p.perform call).1, b') ∧
      (p.perform call).2.issued = b'.issued := by
  cases hkey : call.request.key? with
  | none =>
      obtain ⟨hreply, hissued⟩ := perform_index (p := p) hkey
      rw [hreply, hissued]
      refine ⟨_, .index hkey, ?_, rfl⟩
      simp only [serve, hkey]
      rfl
  | some key =>
      obtain ⟨id, b', hserved, hbook, hplain⟩ :=
        run_idFor_served call.naming (p.contextOf call key) ⟨p.issued, events⟩
      obtain ⟨hreply, hissued⟩ := perform_of_key? hkey hplain
      rw [hreply, hissued]
      refine ⟨b', .id hkey hserved, ?_, rfl⟩
      simp only [serve, hkey]
      rw [run_bind_of_run hbook]
      rfl

theorem serve_perform (call : Call) : (p.perform call).2.serve = p.serve := by
  funext next
  obtain ⟨naming, request⟩ := call
  cases request <;> rfl

theorem slug_perform (call : Call) : (p.perform call).2.slug = p.slug := by
  obtain ⟨naming, request⟩ := call
  cases request <;> rfl

theorem Answered.sound {call : Call} {b b' : Book} {reply : Reply} (h : b.Sound p.slug)
    (hanswered : Answered p call b reply b') : b'.Sound p.slug := by
  cases hanswered with
  | index hkey => simpa [drawn, consultation] using h.draw (p.context "" "" "") .default 1
  | id hkey served => exact Book.Sound.served (c := p.contextOf call _) h served

theorem run_mapM_serve (calls : List Call) (events : List Event) :
    ∃ b', (calls.mapM p.serve).run ⟨p.issued, events⟩ = ((p.performAll calls).1, b') ∧
      (p.performAll calls).2.issued = b'.issued ∧
      (Book.Sound p.slug ⟨p.issued, events⟩ → b'.Sound p.slug) := by
  induction calls generalizing p events with
  | nil => exact ⟨_, rfl, rfl, id⟩
  | cons call calls ih =>
      obtain ⟨b, hanswered, hrun, hissued⟩ := run_serve (p := p) call events
      obtain ⟨b', hruns, hall, hsound⟩ := ih (p := (p.perform call).2) b.events
      rw [serve_perform, hissued] at hruns
      rw [slug_perform, hissued] at hsound
      refine ⟨b', ?_, hall, fun h => hsound (hanswered.sound h)⟩
      rw [List.mapM_cons, run_bind_of_run hrun, run_bind_of_run hruns]
      rfl

theorem serve_performAll (calls : List Call) : (p.performAll calls).2.serve = p.serve := by
  induction calls generalizing p with
  | nil => rfl
  | cons call calls ih => exact ih.trans (serve_perform call)

theorem contextOf_performAll (calls : List Call) :
    (p.performAll calls).2.contextOf = p.contextOf := by
  induction calls generalizing p with
  | nil => rfl
  | cons call calls ih =>
      obtain ⟨naming, request⟩ := call
      apply ih.trans
      cases request <;> rfl

theorem replies_eq (calls : List Call) :
    (p.performAll calls).1 = ((calls.mapM p.serve).run ⟨p.issued, []⟩).1 := by
  obtain ⟨b, hruns, -⟩ := run_mapM_serve (p := p) calls []
  rw [hruns]

/-- What a processor, the book on the calls so far and the next call have to do with each other. -/
structure Booked (p : Processor) (calls : List Call) : Prop where
  replies : (p.book calls).1 = (p.performAll calls).1
  issued : (p.book calls).2.issued = (p.performAll calls).2.issued
  sound : (p.book calls).2.Sound p.slug
  next (call : Call) : Answered p call (p.book calls).2 ((p.performAll calls).2.perform call).1
    (p.book (calls ++ [call])).2
  issued_next (call : Call) :
    ((p.performAll calls).2.perform call).2.issued = (p.book (calls ++ [call])).2.issued

theorem Answered.congr {q : Processor} {call : Call} {b b' : Book} {reply : Reply}
    (h : Answered q call b reply b') (hcontext : q.contextOf = p.contextOf) :
    Answered p call b reply b' := by
  cases h with
  | index hkey => exact .index hkey
  | id hkey served => exact .id hkey (hcontext ▸ served)

theorem booked (hnew : p.issued = {}) (calls : List Call) : Booked p calls := by
  obtain ⟨b, hruns, hall, hsound⟩ := run_mapM_serve (p := p) calls []
  have hbook : p.book calls = ((p.performAll calls).1, b) := hruns
  have hnext (call : Call) : Answered p call b ((p.performAll calls).2.perform call).1
      (p.book (calls ++ [call])).2 ∧
      ((p.performAll calls).2.perform call).2.issued = (p.book (calls ++ [call])).2.issued := by
    obtain ⟨b', hanswered, hrun, hissued⟩ :=
      run_serve (p := (p.performAll calls).2) call b.events
    rw [serve_performAll, hall] at hrun
    rw [hall] at hanswered
    have hbook' : (p.book (calls ++ [call])).2 = b' := by
      rw [book, List.mapM_append, run_bind_of_run hruns, List.mapM_cons, bind_assoc,
        run_bind_of_run hrun]
      rfl
    rw [hbook']
    exact ⟨hanswered.congr (contextOf_performAll calls), hissued⟩
  exact {
    replies := by rw [hbook]
    issued := by rw [hbook, hall]
    sound := hbook ▸ hsound (hnew ▸ .new p.slug)
    next := fun call => hbook ▸ (hnext call).1
    issued_next := fun call => (hnext call).2 }

/-- The account of all calls so far, and of any call that is next. -/
structure Orderly (p : Processor) (calls : List Call) : Prop where
  booked : (p.book calls).1 = (p.performAll calls).1 ∧
    (p.book calls).2.issued = (p.performAll calls).2.issued
  /-- By whomever indices are drawn, they are drawn in order and none twice. -/
  in_order : (p.book calls).2.events.filterMap Event.index? =
    List.range (p.performAll calls).2.issued.next
  index (naming : VariableNaming) :
    ((p.performAll calls).2.perform ⟨naming, .index⟩).1 = .index (p.performAll calls).2.issued.next ∧
      (p.book (calls ++ [⟨naming, .index⟩])).2.events =
        (p.book calls).2.events ++ [.drew (p.performAll calls).2.issued.next]
  numbered (key : String × String) (id : String) (kept : .kept key id ∈ (p.book calls).2.events) :
    ∃ n, .drew n ∈ (p.book calls).2.events ∧ id = numberedId p.slug n
  distinct (key key' : String × String) (id id' : String)
    (kept : .kept key id ∈ (p.book calls).2.events)
    (kept' : .kept key' id' ∈ (p.book calls).2.events) : id = id' ↔ key = key'
  settled (key : String × String) (id : String) (kept : .kept key id ∈ (p.book calls).2.events)
    (call : Call) (requested : call.request.key? = some key) :
    ((p.performAll calls).2.perform call).1 = .id id ∧
      ((p.performAll calls).2.perform call).2.issued = (p.performAll calls).2.issued ∧
      (p.book (calls ++ [call])).2.events = (p.book calls).2.events
  /-- A source with a unit that has no default id gets one if the naming gives nothing. Else it gets
  what the naming gives, and only the indices that are used up tell so afterwards. -/
  fresh (key : String × String) (new : ∀ id, .kept key id ∉ (p.book calls).2.events)
    (call : Call) (requested : call.request.key? = some key) :
    let answer := ((Variables.customId call.naming (p.contextOf call key)).run
      (p.performAll calls).2.issued).1
    let after := ((p.performAll calls).2.perform call).2
    match answer.filter (!·.isEmpty) with
    | none => ∃ id, ((p.performAll calls).2.perform call).1 = .id id ∧
        .kept key id ∈ (p.book (calls ++ [call])).2.events
    | some name => ((p.performAll calls).2.perform call).1 = .id (cssIdentifier name) ∧
        (∀ id, .kept key id ∉ (p.book (calls ++ [call])).2.events) ∧
        ∀ later, (after.performAll later).1 =
          ({ (p.performAll calls).2 with
            issued.next := after.issued.next }.performAll later).1

theorem Booked.served {calls : List Call} {key : String × String} (h : Booked p calls)
    {call : Call} (requested : call.request.key? = some key) :
    ∃ id, ((p.performAll calls).2.perform call).1 = .id id ∧ Served call.naming
      (p.contextOf call key) (p.book calls).2 id (p.book (calls ++ [call])).2 := by
  have hnext := h.next call
  generalize ((p.performAll calls).2.perform call).1 = reply at hnext ⊢
  generalize (p.book (calls ++ [call])).2 = b' at hnext ⊢
  cases hnext with
  | index hkey => simp [hkey] at requested
  | id hkey served =>
      obtain rfl := Option.some.inj (hkey.symm.trans requested)
      exact ⟨_, rfl, served⟩

theorem Booked.settled {calls : List Call} {key : String × String} {id : String}
    (h : Booked p calls) (kept : .kept key id ∈ (p.book calls).2.events) {call : Call}
    (requested : call.request.key? = some key) :
    ((p.performAll calls).2.perform call).1 = .id id ∧
      ((p.performAll calls).2.perform call).2.issued = (p.performAll calls).2.issued ∧
      (p.book (calls ++ [call])).2.events = (p.book calls).2.events := by
  have hold : (p.book calls).2.issued.ids.lookup key = some id := h.sound.kept_mem_iff.1 kept
  obtain ⟨id', hreply, hserved⟩ := h.served requested
  rw [hreply, h.issued_next, ← h.issued]
  generalize (p.book (calls ++ [call])).2 = b' at hserved ⊢
  cases hserved with
  | again old =>
      obtain rfl := Option.some.inj (hold.symm.trans old)
      exact ⟨rfl, rfl, rfl⟩
  | custom new answered given => exact nomatch hold.symm.trans new
  | default new empty => exact nomatch hold.symm.trans new

theorem replies_congr {q : Processor} (hserve : q.serve = p.serve) (hissued : q.issued = p.issued)
    (calls : List Call) : (q.performAll calls).1 = (p.performAll calls).1 := by
  rw [replies_eq, replies_eq, hserve, hissued]

theorem performs_orderly (p : Processor) (hnew : p.issued = {}) (calls : List Call) :
    p.Orderly calls := by
  have h := booked hnew calls
  exact {
    booked := ⟨h.replies, h.issued⟩
    in_order := h.issued ▸ h.sound.indices
    index naming := by
      have hnext := h.next ⟨naming, .index⟩
      generalize ((p.performAll calls).2.perform ⟨naming, .index⟩).1 = reply at hnext ⊢
      generalize (p.book (calls ++ [⟨naming, .index⟩])).2 = b' at hnext ⊢
      cases hnext with
      | index hkey => exact ⟨by rw [h.issued], by rw [h.issued]⟩
      | id hkey served => simp [Request.key?] at hkey
    numbered key id kept := by
      have hentry := (lookup_eq_some_iff_mem h.sound.keys).1 (h.sound.kept_mem_iff.1 kept)
      obtain ⟨n, hlt, hid⟩ := h.sound.numbered _ hentry
      exact ⟨n, h.sound.drew_mem_iff.2 hlt, hid⟩
    distinct key key' id id' kept kept' := h.sound.id_eq_iff kept kept'
    settled key id kept call requested := h.settled kept requested
    fresh key new call requested := by
      obtain ⟨id, hreply, hserved⟩ := h.served requested
      have hsound : (p.book (calls ++ [call])).2.Sound p.slug := (booked hnew (calls ++ [call])).sound
      have hissued := h.issued_next call
      have hserve : ((p.performAll calls).2.perform call).2.serve = (p.performAll calls).2.serve :=
        serve_perform call
      simp only [hreply]
      rw [← h.issued]
      generalize hnext : (p.book (calls ++ [call])).2 = b' at *
      cases hserved with
      | again old => exact absurd (h.sound.kept_mem_iff.2 old) (new id)
      | custom new answered given =>
          rw [answered, Option.filter_some, given]
          refine ⟨rfl, ?_, ?_⟩
          · intro id hkept
            exact nomatch (hsound.kept_mem_iff.1 hkept).symm.trans new
          · intro later
            apply replies_congr
            · exact hserve
            · rw [hissued]
      | default new empty =>
          rw [empty]
          exact ⟨_, rfl, List.mem_append_right _ (List.mem_singleton.2 rfl)⟩
  }

def namedWidths : VariableNaming :=
  .custom fun c => .readIndex fun index =>
    .done (if c.unit = "px" then "width" ++ toString index else "")

def widths : Processor where
  callee := .identifier "styled"
  template := ⟨"", [], none⟩
  component := .tag "div"
  dependencies := []
  options := { variableNaming := namedWidths }
  filename := none
  location := none
  displayName := "Box"
  className := "b1"
  slug := "b1"

def widthCalls : List Call :=
  [.id "w" "px" "", .id "w" "em" "", .index, .interpolation .null "" "w" "em", .id "w" "px" ""].map
    (⟨namedWidths, ·⟩)

theorem widths_orderly : widths.issued = {} ∧
    (widths.performAll widthCalls).1 =
      [.id "width0", .id "b1-2", .index 3, .id "b1-2", .id "width4"] ∧
    widths.Orderly widthCalls :=
  ⟨rfl, by decide +kernel, widths.performs_orderly rfl widthCalls⟩

end Processor

end CssExtract.Styled
