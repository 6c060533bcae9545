import BindingPower.Node

/-! Trees printed in rows: one row for each node, the nodes below it in the rows that follow, two blanks deeper. What
is printed tells the trees, up to what no row shows: which of the nodes without any below them are leaves. -/
namespace BindingPower

/-- What the rows of a tree show: the texts of its nodes and which nodes are below which. -/
inductive Outline
  | node (text : String) (children : List Outline)

namespace Outline

mutual
/-- The texts of a tree in the order of the rows, each with its depth. -/
def entries (depth : Nat) : Outline → List (Nat × String)
  | node text children => (depth, text) :: entriesAll (depth + 1) children
def entriesAll (depth : Nat) : List Outline → List (Nat × String)
  | [] => []
  | o :: rest => o.entries depth ++ entriesAll depth rest
end

theorem entriesAll_cons_append (depth : Nat) (text : String) (children os : List Outline)
    (rest : List (Nat × String)) : entriesAll depth (node text children :: os) ++ rest =
      (depth, text) :: (entriesAll (depth + 1) children ++ (entriesAll depth os ++ rest)) := by
  rw [entriesAll, entries, List.cons_append, List.cons_append, List.append_assoc]

/-- What comes after trees of some depth: nothing, or an entry that is less deep. -/
def Above (depth : Nat) (rest : List (Nat × String)) : Prop := ∀ e ∈ rest.head?, e.1 < depth

section Above
variable {depth : Nat} {rest : List (Nat × String)}

theorem Above.succ (h : Above depth rest) (os : List Outline) : Above (depth + 1) (entriesAll depth os ++ rest) := by
  rcases os with _ | ⟨⟨text, children⟩, os⟩
  · exact fun e he => Nat.lt_succ_of_lt (h e he)
  · rw [entriesAll_cons_append]
    rintro e ⟨⟩
    exact Nat.lt_succ_self depth

theorem not_above_cons (o : Outline) (os : List Outline) : ¬Above depth (entriesAll depth (o :: os) ++ rest) := by
  obtain ⟨text, children⟩ := o
  rw [entriesAll_cons_append]
  exact fun h => Nat.lt_irrefl depth (h (depth, text) rfl)

end Above

/-- Entries tell the trees they are of and where these end: the children of a node end before the first entry that
is as little deep as the node, and so do the trees before one that is less deep than they are. -/
theorem entriesAll_append_inj {depth : Nat} {os os' : List Outline} {rest rest' : List (Nat × String)}
    (h : Above depth rest) (h' : Above depth rest')
    (same : entriesAll depth os ++ rest = entriesAll depth os' ++ rest') : os = os' ∧ rest = rest' := by
  match os, os' with
  | [], [] => exact ⟨rfl, same⟩
  | [], o :: os =>
    change rest = _ at same
    exact absurd (same ▸ h) (not_above_cons o os)
  | o :: os, [] =>
    change _ = rest' at same
    exact absurd (same ▸ h') (not_above_cons o os)
  | node text children :: os, node text' children' :: os' =>
    rw [entriesAll_cons_append, entriesAll_cons_append, List.cons.injEq, Prod.mk.injEq] at same
    obtain ⟨⟨-, rfl⟩, below⟩ := same
    -- Above the children is whatever follows them: the trees beside the node, or what comes after all of these.
    obtain ⟨rfl, after⟩ := entriesAll_append_inj (h.succ os) (h'.succ os') below
    obtain ⟨rfl, rfl⟩ := entriesAll_append_inj h h' after
    exact ⟨rfl, rfl⟩

theorem entriesAll_injective {os os' : List Outline} (same : entriesAll 0 os = entriesAll 0 os') : os = os' := by
  have nothing : Above 0 [] := fun e he => by cases he
  exact (entriesAll_append_inj nothing nothing (congrArg (· ++ []) same)).1

/-- A row: two blanks for each level of depth, and the text. -/
def row (e : Nat × String) : String := String.ofList (List.replicate (2 * e.1) ' ') ++ e.2

/-- A text that can be told from the blanks before it and the newline after it. -/
def IsLegible (text : String) : Prop := '\n' ∉ text.toList ∧ ' ' ∉ text.toList.head?

instance (text : String) : Decidable (IsLegible text) := inferInstanceAs (Decidable (_ ∧ _))

/-- The depth and the text of a row. -/
def unindent (cs : List Char) : Nat × String :=
  ((cs.takeWhile (· == ' ')).length / 2, String.ofList (cs.dropWhile (· == ' ')))

/-- The rows of a text in which each ends with a newline. -/
def read (text : String) : List (Nat × String) := (text.toList.splitOn '\n').dropLast.map unindent

theorem toList_row (e : Nat × String) : (row e).toList = List.replicate (2 * e.1) ' ' ++ e.2.toList := by
  rw [row, String.toList_append, String.toList_ofList]

theorem unindent_row {e : Nat × String} (h : IsLegible e.2) : unindent (row e).toList = e := by
  have blanks : ∀ c ∈ List.replicate (2 * e.1) ' ', (c == ' ') = true := fun c hc =>
    beq_iff_eq.mpr (List.eq_of_mem_replicate hc)
  have stop : e.2.toList.takeWhile (· == ' ') = [] ∧ e.2.toList.dropWhile (· == ' ') = e.2.toList := by
    cases hs : e.2.toList with
    | nil => exact ⟨rfl, rfl⟩
    | cons c cs =>
      have hc : (c == ' ') = false := beq_eq_false_iff_ne.mpr fun same => h.2 (by rw [hs, same]; rfl)
      exact ⟨List.takeWhile_cons_of_neg (by simp [hc]), List.dropWhile_cons_of_neg (by simp [hc])⟩
  rw [unindent, toList_row, List.takeWhile_append_of_pos blanks, List.dropWhile_append_of_pos blanks, stop.1, stop.2,
    List.append_nil, List.length_replicate, Nat.mul_div_cancel_left _ (by decide), String.ofList_toList]

theorem splitOn_rows {rows : List (List Char)} (h : ∀ r ∈ rows, '\n' ∉ r) :
    (rows.flatMap (· ++ ['\n'])).splitOn '\n' = rows ++ [[]] := by
  induction rows with
  | nil => rfl
  | cons r rows ih =>
    obtain ⟨hr, hrows⟩ := List.forall_mem_cons.mp h
    rw [List.flatMap_cons, List.append_assoc, List.singleton_append, List.splitOn_append_cons_self_of_not_mem hr,
      ih hrows, List.cons_append]

/-- Rows are read as they were written. -/
theorem read_rows {es : List (Nat × String)} (h : ∀ e ∈ es, IsLegible e.2) :
    read (String.join (es.map fun e => row e ++ "\n")) = es := by
  have whole : (String.join (es.map fun e => row e ++ "\n")).toList =
      (es.map fun e => (row e).toList).flatMap (· ++ ['\n']) := by
    rw [String.toList_join, List.flatMap_map, List.flatMap_map]
    simp
  have inRow : ∀ r ∈ es.map fun e => (row e).toList, '\n' ∉ r := by
    refine List.forall_mem_map.mpr fun e he => ?_
    rw [toList_row, List.mem_append, not_or]
    exact ⟨fun mem => absurd (List.eq_of_mem_replicate mem) (by decide), (h e he).1⟩
  rw [read, whole, splitOn_rows inRow, List.dropLast_concat, List.map_map]
  exact (List.map_congr_left fun e he => unindent_row (h e he)).trans (List.map_id es)

end Outline

namespace Node

mutual
def outline : Node → Outline
  | leaf t => .node t.toText []
  | branch t children => .node t.toText (outlines children)
def outlines : List Node → List Outline
  | [] => []
  | n :: rest => n.outline :: outlines rest
end

theorem outlines_eq_map (ns : List Node) : outlines ns = ns.map outline := by
  induction ns with
  | nil => rfl
  | cons n ns ih => rw [outlines, ih, List.map_cons]

/-- Trees one after another, with a newline after each. -/
def printed (ns : List Node) : String := String.join (ns.map fun n => n.pretty 0 ++ "\n")

/-- Every node of some trees has a text that can be told in its row. -/
def Legible (ns : List Node) : Prop := ∀ n ∈ walkAll ns, Outline.IsLegible n.token.toText

instance (ns : List Node) : Decidable (Legible ns) := inferInstanceAs (Decidable (∀ n ∈ walkAll ns, _))

mutual
theorem rows_eq (depth : Nat) : (n : Node) → n.rows depth = (n.outline.entries depth).map Outline.row
  | leaf t => rfl
  | branch t children => by
    rw [rows, outline, Outline.entries, List.map_cons, ← rowsAll_eq (depth + 1) children]
    rfl
theorem rowsAll_eq (depth : Nat) : (ns : List Node) →
    rowsAll depth ns = (Outline.entriesAll depth (outlines ns)).map Outline.row
  | [] => rfl
  | n :: ns => by
    rw [rowsAll, outlines, Outline.entriesAll, List.map_append, rows_eq depth n, rowsAll_eq depth ns]
end

mutual
/-- The entries of a tree have the texts of its nodes, each before its children. -/
theorem texts_entries (depth : Nat) : (n : Node) →
    (n.outline.entries depth).map (·.2) = n.walk.map (·.token.toText)
  | leaf t => rfl
  | branch t children => by
    rw [outline, Outline.entries, List.map_cons, texts_entriesAll (depth + 1) children, walk, List.map_cons]
    rfl
theorem texts_entriesAll (depth : Nat) : (ns : List Node) →
    (Outline.entriesAll depth (outlines ns)).map (·.2) = (walkAll ns).map (·.token.toText)
  | [] => rfl
  | n :: ns => by
    rw [outlines, Outline.entriesAll, List.map_append, texts_entries depth n, texts_entriesAll depth ns, walkAll,
      List.map_append]
end

private theorem join_rows (row : String) (rows : List String) :
    "\n".intercalate (row :: rows) ++ "\n" = String.join ((row :: rows).map (· ++ "\n")) := by
  induction rows generalizing row with
  | nil => simp
  | cons second rows ih =>
    rw [List.map_cons, String.join_cons, ← ih second, String.intercalate_cons_cons]
    simp only [String.append_assoc]

theorem printed_eq (ns : List Node) :
    printed ns = String.join ((Outline.entriesAll 0 (outlines ns)).map fun e => Outline.row e ++ "\n") := by
  have each (n : Node) : n.pretty 0 ++ "\n" = String.join ((n.rows 0).map (· ++ "\n")) := by
    cases n <;> exact join_rows _ _
  have all : printed ns = String.join ((rowsAll 0 ns).map (· ++ "\n")) := by
    induction ns with
    | nil => rfl
    | cons n ns ih =>
      rw [printed] at ih ⊢
      rw [List.map_cons, String.join_cons, each, ih, rowsAll, List.map_append, String.join_append]
  have rows : rowsAll 0 ns = (Outline.entriesAll 0 (outlines ns)).map Outline.row := rowsAll_eq 0 ns
  rw [all, rows, List.map_map]
  rfl

theorem Legible.entries {ns : List Node} (h : Legible ns) :
    ∀ e ∈ Outline.entriesAll 0 (outlines ns), Outline.IsLegible e.2 := by
  intro e he
  have text : e.2 ∈ (walkAll ns).map (·.token.toText) := by
    rw [← texts_entriesAll 0 ns]
    exact List.mem_map_of_mem he
  obtain ⟨n, hn, same⟩ := List.mem_map.mp text
  exact same ▸ h n hn

/-- Lists of trees are printed alike only if they are alike: as many trees, of the same shapes and with the same texts
at the same places, a leaf counting as a node without children. -/
theorem printed_eq_iff {ns ms : List Node} (hns : Legible ns) (hms : Legible ms) :
    printed ns = printed ms ↔ ns.map outline = ms.map outline := by
  rw [← outlines_eq_map, ← outlines_eq_map]
  constructor
  · intro same
    have read (ls : List Node) (h : Legible ls) : Outline.read (printed ls) = Outline.entriesAll 0 (outlines ls) := by
      rw [printed_eq, Outline.read_rows h.entries]
    have entries := congrArg Outline.read same
    rw [read ns hns, read ms hms] at entries
    exact Outline.entriesAll_injective entries
  · intro same
    rw [printed_eq, printed_eq, same]

theorem printed_eq_iff_leaf :
    let ns : List Node := [.branch (.word "+") [.leaf (.word "a"), .branch (.word "-") []], .leaf (.word "")]
    let ms : List Node := [.branch (.word "+") [.leaf (.word "a"), .leaf (.word "-")], .branch (.word "") []]
    Legible ns ∧ Legible ms ∧ printed ns = "+\n  a\n  -\n\n" ∧ printed ms = printed ns ∧
      ns.map outline = ms.map outline := by
  intro ns ms
  have hns : Legible ns := by decide
  have hms : Legible ms := by decide
  have same : printed ms = printed ns := by decide +kernel
  exact ⟨hns, hms, by decide +kernel, same, (printed_eq_iff hns hms).mp same.symm⟩

end Node
end BindingPower
