import Conch.Proofs.Grammar.Levels
import Conch.Proofs.Reuse

/-!
# How deep accepted trees are

The limit on nesting bounds the ways down an accepted tree as long as the steps from an
operator to its left operand are not counted (`parse_shallow`).  Operators in a row are no
nesting: the parser puts each of them on top of those before it, and a chain of them may
be as high as the text is long (`chained_high`).
-/

namespace Conch.Syntax

open Grammar

/-- The ways down a program, steps to left operands aside. -/
theorem parse_shallow {text : String} {program : Program} (h : parse text = .ok program) :
    Node.descents 0 program ≤ 10 * maxNesting := by
  have hcommand : Yields (fun _ => True) (fun _ => True) (Level.atRoom maxNesting).command
      (Within (7 * maxNesting + 7)) := (yields_atRoom maxNesting).2
    ⟨fun _ _ => trivial, fun _ _ => trivial⟩ fun _ _ _ _ _ _ _ => trivial
  have hwithin := programOf_within hcommand (parse_eq_ok.mp h)
  exact Nat.le_trans hwithin.descents (by decide)

/-- Subshells nested up to the limit. -/
theorem atLimit_shallow : parse (Program.render Program.atLimit) = .ok Program.atLimit ∧
    Node.descents 0 Program.atLimit ≤ 10 * maxNesting :=
  ⟨parse_atLimit, parse_shallow parse_atLimit⟩

/-! ## Chains of operators -/

/-- A command joined to itself so many times. -/
def Node.chained : Nat → Node
  | 0 => .command [.plain "a"] false
  | count + 1 => .binary .andAnd (Node.chained count) (.command [.plain "a"] false)

theorem Node.arguments_letter : Node.Arguments [.plain "a"] := (Node.buried_canonical 0).1.1.2

theorem Node.fits_chained (count : Nat) : (Node.chained count).Fits .list := by
  have hcommand : ∀ rank, (Node.command [.plain "a"] false).Fits rank :=
    fun rank => ⟨fun hfalse => absurd hfalse (by decide), Node.arguments_letter⟩
  induction count with
  | zero => exact hcommand .list
  | succ count ih => exact ⟨.inl rfl, .inl rfl, ih, hcommand .pipeline⟩

theorem Node.chained_canonical (count : Nat) : Program.Canonical [Node.chained count] := by
  refine ⟨⟨(Node.fits_chained count).statement, trivial⟩, ?_⟩
  have hletter := (Piece.forWords_list _).mp (Node.buried_canonical 0).2 _ (List.mem_singleton_self _)
  refine (Piece.forWords_list _).mpr (List.forall_mem_singleton.mpr ?_)
  induction count with
  | zero => exact hletter
  | succ count ih => exact (Piece.forWords_binary ..).mpr ⟨ih, hletter⟩

theorem Node.nesting_chained (count : Nat) : (Node.chained count).nesting = 0 := by
  induction count with
  | zero => rfl
  | succ count ih =>
      rw [Node.chained, Node.nesting, ih]
      rfl

theorem Node.descent_chained (count : Nat) : (Node.chained count).descent 1 = count + 3 := by
  have hletter : (Node.command [.plain "a"] false).descent 1 = 3 := rfl
  induction count with
  | zero => exact hletter
  | succ count ih =>
      rw [Node.chained, Node.descent, ih, hletter]
      omega

theorem Node.byteSize_chained (count : Nat) :
    byteSize (Node.chained count).render.toList = 5 * count + 1 := by
  induction count with
  | zero => decide
  | succ count ih =>
      have hlast : byteSize (" ".toList ++ (Token.andAnd.text.toList ++ (" ".toList ++
          (Node.command [.plain "a"] false).render.toList))) = 5 := by decide
      have hrender : (Node.chained (count + 1)).render.toList =
          (Node.chained count).render.toList ++ (" ".toList ++ (Token.andAnd.text.toList ++
            (" ".toList ++ (Node.command [.plain "a"] false).render.toList))) := by
        simp [Node.chained, Node.render]
      rw [hrender, byteSize_append, ih, hlast]
      omega

/-- As many operators as the text may hold. -/
theorem parse_chained {count : Nat} (hsize : 5 * count + 1 ≤ maxInputSize) :
    parse (Program.render [Node.chained count]) = .ok [Node.chained count] := by
  refine parse_render_canonical (Node.chained_canonical count) ?_ ?_
  · simp [Node.nestings, Node.nesting_chained]
  · have hrender : Program.render [Node.chained count] = (Node.chained count).render := by
      simp [Program.render, Node.renderList, Node.renderMore]
    rw [hrender, Node.byteSize_chained]
    exact hsize

/-- With all steps counted, some two thousand operators are higher than that. -/
theorem chained_high :
    parse (Program.render [Node.chained 2001]) = .ok [Node.chained 2001] ∧
      10 * maxNesting < Node.descents 1 [Node.chained 2001] := by
  refine ⟨parse_chained (by decide), ?_⟩
  rw [Node.descents, Node.descent_chained]
  decide

end Conch.Syntax
