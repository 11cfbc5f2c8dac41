import LyaLang.Proofs.Tree.Labels
import LyaLang.Proofs.Tree.Subtree

/-! # Labels partition their range

Reserving labels for a tree divides a range of labels among its constructs with internal control flow: in the
order of the nodes, in which a node stands before those below it, each gets the labels next to those given out.
-/

namespace LyaLang

open Ast

/-- A construct with internal control flow: an `if` chain, a conditional expression, a loop or a procedure. -/
def Ast.Node.isBranching {α : Type} : Node α → Bool
  | .stmt (.branch ..) | .expr (.cond ..) | .stmt (.loop ..) | .stmt (.proc ..) => true
  | _ => false

theorem Ast.Node.labelBudget_eq_zero {α : Type} (node : Node α) : node.labelBudget = 0 ↔ node.isBranching = false := by
  cases node with
  | stmt s => cases s <;> simp [labelBudget, isBranching]
  | expr e => cases e <;> simp [labelBudget, isBranching]
  | _ => simp [labelBudget, isBranching]

/-- The number of labels that the constructs of a program need. -/
def Ast.Program.labelTotal {α : Type} (p : Program α) : Nat := (p.nodes.map Node.labelBudget).sum

theorem length_labelsOf {nodes : List (Node Origin)} (labeled : Labeled nodes) :
    (labelsOf nodes).length = (nodes.map Node.labelBudget).sum := by
  rw [labelsOf, List.length_flatMap]
  refine congrArg List.sum (List.map_congr_left fun node member => ?_)
  obtain ⟨first, block⟩ := labeled node member
  rw [ownLabels_of_block block, labelRun_length]

section

variable {first : Int64} {count : Nat} (fits : first.toInt + count ≤ 2 ^ 63)

include fits

private theorem toInt_label {i : Nat} (inside : i < count) : (first + Int64.ofNat i).toInt = first.toInt + i := by
  have low := first.le_toInt
  have size : Int64.size = 2 ^ 64 := rfl
  rw [Int64.toInt_add, Int64.toInt_ofNat', size, Int.add_bmod_bmod]
  exact Int.bmod_eq_of_le (by omega) (by omega)

theorem labelRun_pairwise : (labelRun first count).Pairwise (· < ·) := by
  rw [labelRun, List.pairwise_map]
  refine List.Pairwise.imp_of_mem ?_ List.pairwise_lt_range
  intro i j inside inside' less
  rw [List.mem_range] at inside inside'
  rw [Int64.lt_iff_toInt_lt, toInt_label fits inside, toInt_label fits inside']
  omega

theorem mem_labelRun {l : Int64} : l ∈ labelRun first count ↔ first.toInt ≤ l.toInt ∧ l.toInt < first.toInt + count := by
  simp only [labelRun, List.mem_map, List.mem_range]
  constructor
  · rintro ⟨i, inside, rfl⟩
    rw [toInt_label fits inside]
    omega
  · rintro ⟨low, high⟩
    refine ⟨(l.toInt - first.toInt).toNat, by omega, Int64.toInt_inj.mp ?_⟩
    rw [toInt_label fits (by omega)]
    omega

end

/-- Reserving labels for a tree gives every construct with internal control flow a block with as many labels as it
needs, and no other node any. Read off in the order of the nodes, the labels are those from the next free one on,
and the next free label moves behind them; so the blocks are disjoint and fill their range, and the block of a
node lies before those of the nodes behind it, with the nodes below it first. -/
theorem label_blocks_partition_range (c : Context) (program : Program Span) :
    ∃ labeled : Program Origin, labeled.map Origin.span = program ∧
      c.reserveProgram program = ({ c with nextLabel := c.nextLabel + Int64.ofNat program.labelTotal }, labeled.map Origin.note) ∧
      (∀ node ∈ labeled.nodes, ∃ first,
        node.note.labels = if node.isBranching then some ⟨first, node.labelBudget⟩ else none) ∧
      labelsOf labeled.nodes = labelRun c.nextLabel program.labelTotal ∧
      (∀ node rest, node :: rest <:+ labeled.nodes → node.subtree <+: node :: rest) ∧
      (program.labelTotal ≤ 2 ^ 64 → labeled.nodes.Pairwise fun m n => m.ownLabels.Disjoint n.ownLabels) ∧
      (c.nextLabel.toInt + program.labelTotal ≤ 2 ^ 63 →
        (∀ l, l ∈ labelsOf labeled.nodes ↔ c.nextLabel.toInt ≤ l.toInt ∧ l.toInt < c.nextLabel.toInt + program.labelTotal) ∧
        labeled.nodes.Pairwise fun m n => ∀ l ∈ m.ownLabels, ∀ k ∈ n.ownLabels, l < k) := by
  obtain ⟨labeled, after, ran, spans, numbers⟩ := program.reserved c.nextLabel
  have length : (labelsOf labeled.nodes).length = program.labelTotal := by
    rw [Program.labelTotal, length_labelsOf numbers.labeled, ← spans, Program.nodes_map, List.map_map]
    exact congrArg List.sum (List.map_congr_left fun node _ => (node.labelBudget_map Origin.span).symm)
  have labels : labeled.nodes.flatMap Node.ownLabels = _ := numbers.labels_eq
  have next := numbers.after_eq
  rw [length] at labels next
  refine ⟨labeled, spans, ?_, fun node member => ?_, labels, labeled.nested, fun few => ?_, fun fits => ⟨?_, ?_⟩⟩
  · rw [Context.reserveProgram, ran, next]
  · obtain ⟨first, block⟩ := numbers.labeled node member
    refine ⟨first, block.trans ?_⟩
    cases branching : node.isBranching with
    | false => rw [if_pos (node.labelBudget_eq_zero.mpr branching)]; rfl
    | true => rw [if_neg (by rw [node.labelBudget_eq_zero, branching]; exact Bool.noConfusion)]; rfl
  · exact (List.nodup_flatMap.mp (labels ▸ labelRun_nodup few)).2
  · intro l
    rw [labelsOf, labels, mem_labelRun fits]
  · exact (List.pairwise_flatMap.mp (labels ▸ labelRun_pairwise fits)).2

end LyaLang
