import FiniteState.Proofs.Automaton.Refusal
import FiniteState.Proofs.Automaton.TableText

/-!
# Reading a graph

The graph of an automaton is a list of statements, each on a line of its own.  Between the
quotation marks of a line stand labels and symbols, which have neither breaks nor quotation
marks in them, so a line is split at these into its pieces.  The pieces outside of quotation
marks tell the kinds of statements apart, and the others say what the statement is about.

A graph does not show the columns of symbols that are not used, nor in which order the
states were inserted if some of them accept.  It shows all that the accepted words depend on.

## Main definitions

* `Automaton.Statement` — the statements of a graph, and `Statement.pieces` — their texts.
* `Automaton.statements` — the statements of the graph of an automaton.
* `Automaton.readDot` — the pieces of the statements of a text.
* `Automaton.SameGraph` — the states, the marks and the transitions are the same.

## Main results

* `Automaton.Statement.pieces_injective` — **a statement is known by its pieces**.
* `Automaton.toList_dot` — a graph is its statements, line by line.
* `Automaton.readDot_rendered` — so the **statements are read back**.
* `Automaton.WellFormed.mem_targets_iff_edge` — the edges are the transitions.
* `Automaton.WellFormed.sameGraph_of_dot_eq` — **equal graphs show the same automaton**.
* `Automaton.Obtainable.rendering_faithful` — **both renderings are faithful**, and
  automata with equal graphs accept the same words.
-/

namespace FiniteState.Automaton

variable {fa fb : Automaton} {p q r : Label} {s : Symbol}

/-! ### Statements -/

/-- A statement of a graph. -/
inductive Statement where
  /-- The graph begins. -/
  | opening
  /-- It is drawn from left to right. -/
  | direction
  /-- The accepting states, at least one, are double circles. -/
  | finals (q : Label) (rest : List Label)
  /-- The other states are circles. -/
  | circle
  /-- A state that does not accept. -/
  | node (q : Label)
  /-- The arrow to the initial state starts at a point. -/
  | point
  /-- The initial state. -/
  | start (q : Label)
  /-- The symbols between two states. -/
  | edge (ends : Label × Label) (symbols : List Symbol)

/-- The symbols of an edge. -/
def symbolText (symbols : List Symbol) : String := ", ".intercalate (symbols.map Label.ofChar)

/-- What follows the first quotation mark in the statement of the accepting states. -/
def finalPieces (q : Label) : List Label → List String
  | [] => [q, ";"]
  | r :: rest => q :: " " :: finalPieces r rest

namespace Statement

/-- The text of a statement, cut at its quotation marks. -/
def pieces : Statement → List String
  | opening => ["digraph automaton \x7b"]
  | direction => ["    rankdir=LR;"]
  | finals q rest => "    node [shape = doublecircle]; " :: finalPieces q rest
  | circle => ["    node [shape = circle];"]
  | node q => ["    ", q, ";"]
  | point => ["    start [shape = point];"]
  | start q => ["    start -> ", q, ";"]
  | edge (p, q) symbols => ["    ", p, " -> ", q, " [label = ", symbolText symbols, "];"]

/-- The text of a statement. -/
def text (a : Statement) : List Char := ['"'].intercalate (a.pieces.map String.toList)

end Statement

theorem toList_symbolText (symbols : List Symbol) :
    (symbolText symbols).toList = [',', ' '].intercalate (symbols.map fun s => [s]) := by
  rw [symbolText, String.toList_intercalate, List.map_map]
  exact congrArg _ (List.map_congr_left fun s _ => Label.toList_ofChar s)

theorem toList_symbolText_nil : (symbolText []).toList = [] := rfl

theorem toList_symbolText_singleton (s : Symbol) : (symbolText [s]).toList = [s] := by
  rw [toList_symbolText]
  rfl

theorem toList_symbolText_cons_cons (s t : Symbol) (symbols : List Symbol) :
    (symbolText (s :: t :: symbols)).toList =
      s :: ',' :: ' ' :: (symbolText (t :: symbols)).toList := by
  rw [toList_symbolText, toList_symbolText]
  rfl

/-- Symbols are single characters, so they are known by their places. -/
theorem symbolText_injective : Function.Injective symbolText := by
  intro a b h
  replace h := congrArg String.toList h
  -- texts of no symbol, of one and of more differ in their first two characters
  induction a generalizing b with
  | nil =>
    rcases b with _ | ⟨t, _ | ⟨t', b⟩⟩ <;>
      simp only [toList_symbolText_nil, toList_symbolText_singleton, toList_symbolText_cons_cons,
        reduceCtorEq] at h
    rfl
  | cons s a ih =>
    rcases a with _ | ⟨s', a⟩ <;> rcases b with _ | ⟨t, _ | ⟨t', b⟩⟩ <;>
      simp only [toList_symbolText_nil, toList_symbolText_singleton, toList_symbolText_cons_cons,
        List.cons.injEq, reduceCtorEq, and_false, and_true, true_and] at h
    · rw [h]
    · rw [h.1, ih h.2]

theorem finalPieces_injective {rest rest' : List Label}
    (h : finalPieces q rest = finalPieces r rest') : q = r ∧ rest = rest' := by
  induction rest generalizing q r rest' with
  | nil =>
    cases rest' with
    | nil => exact ⟨(List.cons.inj h).1, rfl⟩
    | cons r' rest' => simp [finalPieces] at h
  | cons q' rest ih =>
    cases rest' with
    | nil => simp [finalPieces] at h
    | cons r' rest' =>
      simp only [finalPieces, List.cons.injEq, true_and] at h
      obtain ⟨rfl, rfl⟩ := ih h.2
      exact ⟨h.1, rfl⟩

/-- **A statement is known by its pieces.** -/
theorem Statement.pieces_injective : Function.Injective pieces := by
  intro a b h
  -- the pieces of two kinds differ in number or in the first one
  cases a <;> cases b <;> simp [pieces] at h ⊢
  case finals.finals => exact finalPieces_injective h
  case node.node => exact h
  case start.start => exact h
  case edge.edge => exact ⟨Prod.ext h.1 h.2.1, symbolText_injective h.2.2⟩

/-! ### The statements of a graph -/

/-- The statement of the accepting states, if there are any. -/
def finalStatements : List Label → List Statement
  | [] => []
  | q :: rest => [.finals q rest]

/-- The statements of the initial state, if there is one. -/
def startStatements : Option Label → List Statement
  | none => []
  | some q => [.point, .start q]

/-- The statements of the graph of an automaton. -/
def statements (fa : Automaton) : List Statement :=
  [.opening, .direction] ++ finalStatements fa.finals ++ [.circle] ++
    (fa.states.filter fun q => !fa.isFinal q).map .node ++ startStatements fa.initial ++
    fa.edges.map fun e => .edge e.1 e.2

/-- Statements with a break after each. -/
def rendered (statements : List Statement) : List Char :=
  statements.flatMap fun a => a.text ++ ['\n']

theorem rendered_append (before after : List Statement) :
    rendered (before ++ after) = rendered before ++ rendered after :=
  List.flatMap_append

theorem toList_node (q : Label) :
    ("    " ++ quoteLabel q ++ ";\n").toList = (Statement.node q).text ++ ['\n'] := by
  simp [Statement.text, Statement.pieces, quoteLabel]

theorem toList_start (q : Label) :
    ("    start [shape = point];\n    start -> " ++ quoteLabel q ++ ";\n").toList =
      rendered [.point, .start q] := by
  simp [rendered, Statement.text, Statement.pieces, quoteLabel]

theorem toList_edgeStatement (e : (Label × Label) × List Symbol) :
    (edgeStatement e).toList = (Statement.edge e.1 e.2).text ++ ['\n'] := by
  simp [Statement.text, Statement.pieces, quoteLabel, edgeStatement, symbolText]

theorem map_finalPieces_ne_nil (q : Label) (rest : List Label) :
    (finalPieces q rest).map String.toList ≠ [] := by
  cases rest <;> exact List.cons_ne_nil _ _

/-- The labels of accepting states between quotation marks, with a blank between two. -/
theorem intercalate_finalPieces (q : Label) (rest : List Label) :
    '"' :: ['"'].intercalate ((finalPieces q rest).map String.toList) =
      (" ".intercalate ((q :: rest).map quoteLabel)).toList ++ [';'] := by
  induction rest generalizing q with
  | nil => simp [finalPieces, quoteLabel]
  | cons r rest ih =>
    calc '"' :: ['"'].intercalate ((finalPieces q (r :: rest)).map String.toList)
      _ = (quoteLabel q).toList ++ ' ' ::
          '"' :: ['"'].intercalate ((finalPieces r rest).map String.toList) := by
        rw [finalPieces, List.map_cons, List.map_cons,
          List.intercalate_cons_of_ne_nil (List.cons_ne_nil _ _),
          List.intercalate_cons_of_ne_nil (map_finalPieces_ne_nil r rest)]
        simp [quoteLabel]
      _ = (quoteLabel q).toList ++ ' ' ::
          ((" ".intercalate ((r :: rest).map quoteLabel)).toList ++ [';']) := by rw [ih]
      _ = (" ".intercalate ((q :: r :: rest).map quoteLabel)).toList ++ [';'] := by
        rw [List.map_cons, List.map_cons, List.map_cons, String.intercalate_cons_cons]
        simp

theorem toList_finals (q : Label) (rest : List Label) :
    ("    node [shape = doublecircle]; " ++ " ".intercalate ((q :: rest).map quoteLabel) ++
      ";\n").toList = rendered [.finals q rest] := by
  have htext : (Statement.finals q rest).text = "    node [shape = doublecircle]; ".toList ++
      '"' :: ['"'].intercalate ((finalPieces q rest).map String.toList) := by
    rw [Statement.text, Statement.pieces, List.map_cons,
      List.intercalate_cons_of_ne_nil (map_finalPieces_ne_nil q rest), List.append_assoc,
      List.singleton_append]
  rw [rendered, List.flatMap_singleton, htext, intercalate_finalPieces]
  simp only [String.toList_append, List.append_assoc]
  rfl

theorem toList_finalStatements (finals : List Label) :
    (if finals.isEmpty then "" else "    node [shape = doublecircle]; " ++
      " ".intercalate (finals.map quoteLabel) ++ ";\n").toList =
      rendered (finalStatements finals) := by
  cases finals with
  | nil => rfl
  | cons q rest => exact toList_finals q rest

theorem toList_startStatements (initial : Option Label) :
    (match initial with
      | some q => "    start [shape = point];\n    start -> " ++ quoteLabel q ++ ";\n"
      | none => "").toList = rendered (startStatements initial) := by
  cases initial with
  | none => rfl
  | some q => exact toList_start q

theorem toList_nodes (states : List Label) :
    (String.join (states.map fun q => "    " ++ quoteLabel q ++ ";\n")).toList =
      rendered (states.map .node) := by
  rw [String.toList_join, rendered, List.flatMap_map, List.flatMap_map]
  exact List.flatMap_congr fun q _ => toList_node q

theorem toList_edges (edges : List ((Label × Label) × List Symbol)) :
    (String.join (edges.map edgeStatement)).toList =
      rendered (edges.map fun e => .edge e.1 e.2) := by
  rw [String.toList_join, rendered, List.flatMap_map, List.flatMap_map]
  exact List.flatMap_congr fun e _ => toList_edgeStatement e

/-- **A graph is its statements, line by line**, and a brace. -/
theorem toList_dot (fa : Automaton) : fa.dot.toList = rendered fa.statements ++ ['\x7d'] := by
  have hopening : "digraph automaton \x7b\n    rankdir=LR;\n".toList =
      rendered [.opening, .direction] := by
    simp [rendered, Statement.text, Statement.pieces]
  have hcircle : "    node [shape = circle];\n".toList = rendered [.circle] := by
    simp [rendered, Statement.text, Statement.pieces]
  -- stated of variables, because the texts themselves are long to unfold
  have hparts (a b c d e f g : String) : (a ++ b ++ c ++ d ++ e ++ f ++ g).toList =
      a.toList ++ b.toList ++ c.toList ++ d.toList ++ e.toList ++ f.toList ++ g.toList := by
    simp only [String.toList_append]
  rw [statements]
  simp only [rendered_append]
  rw [← hopening, ← hcircle, ← toList_finalStatements, ← toList_startStatements, ← toList_nodes,
    ← toList_edges]
  exact hparts _ _ _ _ _ _ _

/-! ### Reading the lines -/

/-- The pieces of a text: the last line is left out, and the others are cut at the quotation
marks. -/
def readDot (text : List Char) : List (List (List Char)) :=
  (text.splitOn '\n').dropLast.map (·.splitOn '"')

/-- The labels in a statement are valid, and the symbols are terminals or the marker. -/
def Statement.Named : Statement → Prop
  | finals q rest => ∀ r ∈ q :: rest, r.Valid
  | node q | start q => q.Valid
  | edge (p, q) symbols =>
    p.Valid ∧ q.Valid ∧ ∀ s ∈ symbols, Symbol.isTransitionSymbol s = true
  | _ => True

/-- Neither quotation marks nor breaks stand in the text. -/
def Plain (text : String) : Prop := '"' ∉ text.toList ∧ '\n' ∉ text.toList

instance (text : String) : Decidable (Plain text) :=
  inferInstanceAs (Decidable (_ ∧ _))

theorem plain_label (hq : q.Valid) : Plain q := ⟨hq.notMem (by decide), hq.notMem (by decide)⟩

theorem plain_symbolText {symbols : List Symbol}
    (h : ∀ s ∈ symbols, Symbol.isTransitionSymbol s = true) : Plain (symbolText symbols) := by
  have hmem : ∀ c ∈ (symbolText symbols).toList,
      c ∈ [',', ' '] ∨ Symbol.isTransitionSymbol c = true := by
    intro c hc
    rw [toList_symbolText] at hc
    rcases List.mem_of_mem_intercalate hc with hsep | ⟨piece, hpiece, hc⟩
    · exact .inl hsep
    · obtain ⟨s, hs, rfl⟩ := List.mem_map.1 hpiece
      exact .inr (List.mem_singleton.1 hc ▸ h s hs)
  exact ⟨fun hc => absurd (hmem _ hc) (by decide), fun hc => absurd (hmem _ hc) (by decide)⟩

theorem plain_finalPieces {rest : List Label} (h : ∀ r ∈ q :: rest, r.Valid) :
    ∀ piece ∈ finalPieces q rest, Plain piece := by
  induction rest generalizing q with
  | nil =>
    rw [List.forall_mem_singleton] at h
    exact List.forall_mem_cons.2 ⟨plain_label h, by decide⟩
  | cons r rest ih =>
    rw [List.forall_mem_cons] at h
    exact List.forall_mem_cons.2 ⟨plain_label h.1, List.forall_mem_cons.2 ⟨by decide, ih h.2⟩⟩

namespace Statement

variable {a : Statement}

theorem pieces_ne_nil (a : Statement) : a.pieces ≠ [] := by
  cases a <;> exact List.cons_ne_nil _ _

theorem Named.plain (h : a.Named) : ∀ piece ∈ a.pieces, Plain piece := by
  cases a with
  | opening | direction | circle | point => decide
  | finals q rest => exact List.forall_mem_cons.2 ⟨by decide, plain_finalPieces h⟩
  | node q | start q =>
    simp only [pieces, List.forall_mem_cons]
    exact ⟨by decide, plain_label h, by decide, by decide⟩
  | edge ends symbols =>
    simp only [pieces, List.forall_mem_cons]
    exact ⟨by decide, plain_label h.1, by decide, plain_label h.2.1, by decide,
      plain_symbolText h.2.2, by decide, by decide⟩

/-- A statement is cut at its quotation marks into its pieces. -/
theorem Named.splitOn_text (h : a.Named) : a.text.splitOn '"' = a.pieces.map String.toList := by
  refine List.splitOn_intercalate '"' (fun piece hpiece => ?_)
    fun hnil => a.pieces_ne_nil (List.map_eq_nil_iff.1 hnil)
  obtain ⟨text, htext, rfl⟩ := List.mem_map.1 hpiece
  exact (h.plain text htext).1

theorem Named.break_notMem_text (h : a.Named) : '\n' ∉ a.text := by
  intro hbreak
  rcases List.mem_of_mem_intercalate hbreak with hmark | ⟨piece, hpiece, hbreak⟩
  · revert hmark
    decide
  · obtain ⟨text, htext, rfl⟩ := List.mem_map.1 hpiece
    exact (h.plain text htext).2 hbreak

end Statement

/-- **The statements of a graph are read back**, as their pieces. -/
theorem readDot_rendered {statements : List Statement} (h : ∀ a ∈ statements, a.Named) :
    readDot (rendered statements ++ ['\x7d']) =
      statements.map fun a => a.pieces.map String.toList := by
  have hlines : (rendered statements).splitOn '\n' = statements.map Statement.text ++ [[]] := by
    rw [← List.splitOn_flatMap_concat, List.flatMap_map]
    · rfl
    · intro line hline
      obtain ⟨a, ha, rfl⟩ := List.mem_map.1 hline
      exact (h a ha).break_notMem_text
  rw [readDot, List.splitOn_append_of_eq hlines (rfl : ['\x7d'].splitOn '\n' = [['\x7d']]),
    List.dropLast_concat, List.map_map]
  exact List.map_congr_left fun a ha => (h a ha).splitOn_text

/-- So automata whose labels and symbols are as they should be have the same statements where
they have the same graph. -/
theorem statements_eq_of_dot_eq (hfa : ∀ a ∈ fa.statements, a.Named)
    (hfb : ∀ a ∈ fb.statements, a.Named) (h : fa.dot = fb.dot) :
    fa.statements = fb.statements := by
  have hpieces : fa.statements.map (fun a => a.pieces.map String.toList) =
      fb.statements.map fun a => a.pieces.map String.toList := by
    rw [← readDot_rendered hfa, ← readDot_rendered hfb, ← toList_dot, ← toList_dot, h]
  refine List.map_injective_iff.2 (fun a b hab => Statement.pieces_injective ?_) hpieces
  exact List.map_injective_iff.2 (fun _ _ => String.toList_injective) hab

/-! ### What the statements say -/

/-- **The same states, marks and transitions.**  The columns and their order are not shown in
a graph. -/
structure SameGraph (fa fb : Automaton) : Prop where
  /-- The same states. -/
  states : ∀ q, q ∈ fa.states ↔ q ∈ fb.states
  /-- The same initial state. -/
  initial : fa.initial = fb.initial
  /-- The same accepting states, in the same order. -/
  finals : fa.finals = fb.finals
  /-- The same transitions. -/
  targets : ∀ q s, fa.targets q s = fb.targets q s

theorem mem_finalStatements {a : Statement} {finals : List Label} :
    a ∈ finalStatements finals ↔ ∃ q rest, finals = q :: rest ∧ a = .finals q rest := by
  cases finals <;> simp [finalStatements]

theorem mem_startStatements {a : Statement} {initial : Option Label} :
    a ∈ startStatements initial ↔ ∃ q, initial = some q ∧ (a = .point ∨ a = .start q) := by
  cases initial <;> simp [startStatements]

theorem mem_statements {a : Statement} : a ∈ fa.statements ↔
    a = .opening ∨ a = .direction ∨
      (∃ q rest, fa.finals = q :: rest ∧ a = .finals q rest) ∨ a = .circle ∨
      (∃ q, (q ∈ fa.states ∧ q ∉ fa.finals) ∧ a = .node q) ∨
      (∃ q, fa.initial = some q ∧ (a = .point ∨ a = .start q)) ∨
      ∃ e ∈ fa.edges, a = .edge e.1 e.2 := by
  simp only [statements, List.mem_append, List.mem_map, List.mem_filter, mem_finalStatements,
    mem_startStatements, List.mem_cons, List.not_mem_nil, or_false, Bool.not_eq_true',
    isFinal, List.contains_eq_mem, decide_eq_false_iff_not, eq_comm (b := a), or_assoc]

theorem finals_mem_statements {rest : List Label} :
    .finals q rest ∈ fa.statements ↔ fa.finals = q :: rest := by
  simp [mem_statements]

theorem start_mem_statements : .start q ∈ fa.statements ↔ fa.initial = some q := by
  simp [mem_statements]

theorem node_mem_statements : .node q ∈ fa.statements ↔ q ∈ fa.states ∧ q ∉ fa.finals := by
  simp [mem_statements]

theorem edge_mem_statements {ends : Label × Label} {symbols : List Symbol} :
    .edge ends symbols ∈ fa.statements ↔ (ends, symbols) ∈ fa.edges := by
  simp [mem_statements]

theorem mem_edges {ends : Label × Label} {symbols : List Symbol} :
    (ends, symbols) ∈ fa.edges ↔ ends ∈ fa.transitions.map Prod.fst ∧
      symbols = fa.transitions.filterMap fun t => if t.1 = ends then some t.2 else none := by
  simp only [edges, List.mem_map, List.mem_eraseDups, Prod.mk.injEq]
  constructor
  · rintro ⟨ends, hends, rfl, rfl⟩
    exact ⟨hends, rfl⟩
  · rintro ⟨hends, rfl⟩
    exact ⟨ends, hends, rfl, rfl⟩

namespace WellFormed

variable (h : fa.WellFormed)

include h

theorem mem_transitions : ((p, r), s) ∈ fa.transitions ↔ r ∈ fa.targets p s := by
  simp only [transitions, List.mem_flatMap, List.mem_map, Prod.exists, Prod.mk.injEq]
  constructor
  · rintro ⟨q, t, c, hc, r', hr, ⟨rfl, rfl⟩, rfl⟩
    rw [h.targets_of_mem_cells hc]
    exact hr
  · intro hr
    obtain ⟨c, hc, htargets⟩ := exists_cell_of_mem_targets hr
    exact ⟨p, s, c, hc, r, htargets ▸ hr, ⟨rfl, rfl⟩, rfl⟩

/-- **The edges are the transitions.** -/
theorem mem_targets_iff_edge :
    r ∈ fa.targets p s ↔ ∃ symbols, ((p, r), symbols) ∈ fa.edges ∧ s ∈ symbols := by
  have hsymbols : s ∈ (fa.transitions.filterMap fun t => if t.1 = (p, r) then some t.2 else none) ↔
      r ∈ fa.targets p s := by
    rw [← h.mem_transitions]
    simp
  constructor
  · intro hr
    exact ⟨_, mem_edges.2 ⟨List.mem_map.2 ⟨_, h.mem_transitions.2 hr, rfl⟩, rfl⟩, hsymbols.2 hr⟩
  · rintro ⟨symbols, hedge, hs⟩
    obtain ⟨-, rfl⟩ := mem_edges.1 hedge
    exact hsymbols.1 hs

/-- The states are circles, of one kind or the other. -/
theorem mem_states_iff_node : q ∈ fa.states ↔ .node q ∈ fa.statements ∨ q ∈ fa.finals := by
  rw [node_mem_statements]
  by_cases hq : q ∈ fa.finals
  · exact iff_of_true (h.final_mem hq) (.inr hq)
  · rw [or_iff_left hq, and_iff_left hq]

/-- The statements of a graph have the labels and the symbols of the automaton. -/
theorem named_of_mem_statements (hnamed : fa.Named) {a : Statement} (ha : a ∈ fa.statements) :
    a.Named := by
  rcases mem_statements.1 ha with rfl | rfl | ⟨q, rest, hfinals, rfl⟩ | rfl | ⟨q, ⟨hq, -⟩, rfl⟩ |
    ⟨q, hq, rfl | rfl⟩ | ⟨⟨⟨p, r⟩, symbols⟩, hedge, rfl⟩
  · trivial
  · trivial
  · exact fun r hr => hnamed.label r (h.final_mem (hfinals ▸ hr))
  · trivial
  · exact hnamed.label q hq
  · trivial
  · exact hnamed.label q (h.initial_mem hq)
  · obtain ⟨⟨-, s⟩, hmove, rfl⟩ := List.mem_map.1 (mem_edges.1 hedge).1
    have hr : r ∈ fa.targets p s := h.mem_transitions.1 hmove
    refine ⟨hnamed.label p (fa.mem_states_of_mem_targets hr), hnamed.label r (h.target_mem hr), ?_⟩
    exact fun s hs => hnamed.symbol s (h.symbol_mem (h.mem_targets_iff_edge.2 ⟨symbols, hedge, hs⟩))

/-- **Equal graphs show the same automaton.** -/
theorem sameGraph_of_dot_eq (hfb : fb.WellFormed) (hna : fa.Named) (hnb : fb.Named)
    (hdot : fa.dot = fb.dot) : fa.SameGraph fb := by
  have hstatements : fa.statements = fb.statements :=
    statements_eq_of_dot_eq (fun _ => h.named_of_mem_statements hna)
      (fun _ => hfb.named_of_mem_statements hnb) hdot
  have hcons : ∀ q rest, fa.finals = q :: rest ↔ fb.finals = q :: rest := by
    simp only [← finals_mem_statements, hstatements, implies_true]
  have hfinals : fa.finals = fb.finals := by
    cases hb : fb.finals with
    | cons q rest => exact (hcons q rest).2 hb
    | nil =>
      rw [List.eq_nil_iff_forall_not_mem]
      intro q hq
      obtain ⟨r, rest, ha⟩ := List.exists_cons_of_ne_nil (List.ne_nil_of_mem hq)
      rw [(hcons r rest).1 ha] at hb
      cases hb
  refine ⟨fun q => ?_, Option.ext fun q => ?_, hfinals, fun p s => LabelSet.ext fun r => ?_⟩
  · rw [h.mem_states_iff_node, hfb.mem_states_iff_node, hstatements, hfinals]
  · rw [← start_mem_statements, hstatements, start_mem_statements]
  · rw [h.mem_targets_iff_edge, hfb.mem_targets_iff_edge]
    simp only [← edge_mem_statements, hstatements]

end WellFormed

/-! ### Both renderings -/

/-- **Renderings are faithful.**  Two automata without rejected edits have the same table iff
their states, symbols, marks and cells are the same.  Automata with the same graph have the
same states, marks and transitions, so they accept the same words. -/
theorem Obtainable.rendering_faithful (ha : fa.Obtainable) (hb : fb.Obtainable) :
    (fa.Clean → fb.Clean → (fa.table = fb.table ↔ fa.SameTable fb)) ∧
      (fa.dot = fb.dot → fa.SameGraph fb ∧ ∀ w, fa.accepts w = fb.accepts w) := by
  refine ⟨fun hca hcb => ⟨fun htable => ?_, SameTable.table_eq⟩, fun hdot => ?_⟩
  · exact ha.wellFormed.sameTable_of_table_eq hb.wellFormed ha.named hb.named hca hcb htable
  · have hsame := ha.wellFormed.sameGraph_of_dot_eq hb.wellFormed ha.named hb.named hdot
    exact ⟨hsame, fun w =>
      ha.wellFormed.accepts_congr hb.wellFormed hsame.targets hsame.initial hsame.finals⟩

/-- The automaton of `S -> aS | a` is determinized, and a cell of it is edited to the text that
it shows: only the flag is not as it was, and no rendering shows it. -/
theorem rendering_faithful_flag :
    let fa := ((ofDraft (.ofText "S -> aS | a")).apply .determinize).automaton
    let fb := (fa.apply (.updateTransition "S" 'a' "A")).automaton
    fa ≠ fb ∧ fa.Clean ∧ fb.Clean ∧ fa.table = fb.table ∧ fa.SameTable fb ∧
      fa.dot = fb.dot ∧ fa.SameGraph fb ∧ fa.accepts ['a', 'a'] = fb.accepts ['a', 'a'] := by
  intro fa fb
  have hfa : fa.Obtainable := (Obtainable.ofText "S -> aS | a").edit .determinize rfl
  have hfb : fb.Obtainable := hfa.edit (.updateTransition "S" 'a' "A") rfl
  have hedit : fb = fa.withDeterminized false := by decide
  have htable : fa.table = fb.table := by rw [hedit]; rfl
  have hdot : fa.dot = fb.dot := by rw [hedit]; rfl
  have hca : fa.Clean := by decide
  have hcb : fb.Clean := by decide
  obtain ⟨hsameTable, hsameGraph⟩ := hfa.rendering_faithful hfb
  exact ⟨by decide, hca, hcb, htable, (hsameTable hca hcb).1 htable, hdot, (hsameGraph hdot).1,
    (hsameGraph hdot).2 ['a', 'a']⟩

end FiniteState.Automaton
