import Conch.Proofs.Tree.Heights
import Conch.Proofs.Words.Rereading

/-!
# How high a word is

The fragments of a word are no higher than its text allows, eight levels for each
character, as long as this is so for the programs inside it.
-/

namespace Conch.Syntax

/-- The programs that the parser reads are no higher than their texts allow. -/
def Word.ProgramParser.Bounded (parse : Word.ProgramParser) : Prop :=
  ∀ body program, parse body = .ok program → Node.heights program ≤ 8 * body.length + 3

namespace Word

section

variable {parse : ProgramParser} {place : List Char → Position} {bound : Nat}

theorem substitution_height (hparse : parse.Bounded) {body rest rest' : List Char} {node : Node}
    (h : substitution parse body rest = .ok (some (node, rest'))) :
    node.height ≤ 8 * body.length + 4 := by
  obtain ⟨program, rfl, hprogram, _⟩ := substitution_eq_ok h
  have := hparse body program hprogram
  rw [Node.height]
  omega

/-- The dollar sign counts as a character of the expansion. -/
theorem expansion_height (hparse : parse.Bounded) {text rest : List Char} {node : Node}
    (h : expansion parse place text = .ok (some (node, rest))) :
    node.height ≤ 8 * (text.length + 1) := by
  unfold expansion at h
  split at h
  · split at h
    · cases h
    · rename_i inside _ body after hsplit
      have hlength := congrArg List.length (Delimited.split_eq_ok hsplit)
      simp only [List.length_cons, List.length_append] at hlength ⊢
      split at h
      · rename_i expression hexpression
        cases h
        have hbody := congrArg List.length (arithmeticText?_eq_some hexpression)
        simp only [List.length_cons, List.length_append, List.length_nil] at hbody
        rw [Node.height, textHeight, String.length_ofList]
        omega
      · have := substitution_height hparse h
        omega
  · split at h
    · cases h
    · rename_i inside _ body after hsplit
      have hlength := congrArg List.length (Substitution.split_eq_some hsplit)
      simp only [List.length_cons, List.length_append] at hlength ⊢
      have := substitution_height hparse h
      omega
  · split at h
    · cases h
    · rename_i inside _ body after hsplit
      cases h
      have hlength := congrArg List.length (Delimited.split_eq_ok hsplit)
      simp only [List.length_cons, List.length_append] at hlength ⊢
      rw [Node.height, textHeight, String.length_ofList]
      omega
  · rename_i c after _ _ _
    split at h
    · cases h
      have := (List.takeWhile_sublist (l := after) isNameChar).length_le
      rw [Node.height, textHeight, String.length_ofList, List.length_cons, List.length_cons]
      omega
    · split at h
      · cases h
        rw [Node.height, textHeight, String.length_singleton, List.length_cons]
        omega
      · cases h
  · cases h

/-- A literal is as high as one of its characters allows. -/
theorem flush_height {letters : List Char} {found : List Node}
    (hfound : ∀ n ∈ found, n.height ≤ bound) (hletters : 8 * letters.length ≤ bound) :
    ∀ n ∈ flush letters found, n.height ≤ bound := by
  unfold flush
  split
  · exact hfound
  · rename_i hne
    have hpos : letters.length ≠ 0 := by simpa using hne
    refine List.forall_mem_cons.mpr ⟨?_, hfound⟩
    rw [Node.height]
    omega

theorem quotedFragments_height (hparse : parse.Bounded) {letters text rest : List Char}
    {found nodes : List Node} (hfound : ∀ n ∈ found, n.height ≤ bound)
    (hbound : 8 * (letters.length + text.length) ≤ bound)
    (h : quotedFragments parse place letters found text = .ok (nodes, rest)) :
    ∀ n ∈ nodes, n.height ≤ bound := by
  fun_induction quotedFragments parse place letters found text with
  | case1 letters found =>
      cases h
      simpa using flush_height hfound (by simpa using hbound)
  | case2 letters found after =>
      cases h
      simp only [List.length_cons] at hbound
      simpa using flush_height hfound (show 8 * letters.length ≤ bound by omega)
  | case3 letters found =>
      cases h
      simp only [List.length_cons, List.length_nil] at hbound
      simpa using flush_height hfound
        (show 8 * ('\\' :: letters).length ≤ bound by rw [List.length_cons]; omega)
  | case4 letters found c after ih =>
      simp only [List.length_cons] at hbound ih
      exact ih hfound (by omega) h
  | case5 => cases h
  | case6 letters found after hnone ih =>
      simp only [List.length_cons] at hbound ih
      exact ih hfound (by omega) h
  | case7 letters found after node next hnode ih =>
      have hlength := expansion_length_le hnode
      have hheight := expansion_height hparse hnode
      simp only [List.length_cons, List.length_nil] at hbound ih
      refine ih (List.forall_mem_cons.mpr ⟨by omega, flush_height hfound (by omega)⟩) (by omega) h
  | case8 letters found c after _ _ _ _ ih =>
      simp only [List.length_cons] at hbound ih
      exact ih hfound (by omega) h

theorem fragments_height (hparse : parse.Bounded) {letters text : List Char}
    {found nodes : List Node} (hfound : ∀ n ∈ found, n.height ≤ bound)
    (hbound : 8 * (letters.length + text.length) ≤ bound)
    (h : fragments parse place letters found text = .ok nodes) :
    ∀ n ∈ nodes, n.height ≤ bound := by
  fun_induction fragments parse place letters found text with
  | case1 letters found =>
      cases h
      simpa using flush_height hfound (by simpa using hbound)
  | case2 => cases h
  | case3 => cases h
  | case4 letters found after inner last hinner hlast ih =>
      have hlength := quotedFragments_length_le hinner
      have hheight := Node.heights_le
        (quotedFragments_height hparse (by simp) (by simp : _ ≤ 8 * after.length) hinner)
      simp only [List.length_cons, List.length_nil, List.length_tail] at hbound ih
      have hquoted : (Node.quoted inner).height ≤ bound := by
        rw [Node.height]
        omega
      exact ih (List.forall_mem_cons.mpr ⟨hquoted, flush_height hfound (by omega)⟩) (by omega) h
  | case5 letters found =>
      cases h
      simp only [List.length_cons, List.length_nil] at hbound
      simpa using flush_height hfound
        (show 8 * ('\\' :: letters).length ≤ bound by rw [List.length_cons]; omega)
  | case6 letters found c after ih =>
      simp only [List.length_cons] at hbound ih
      exact ih hfound (by omega) h
  | case7 => cases h
  | case8 letters found after inner last hlast ih =>
      have hspan := congrArg List.length
        (List.takeWhile_append_dropWhile (p := fun c => decide (c ≠ '\'')) (l := after))
      have hclosed : last.length ≠ 0 := fun hzero => hlast (by simpa using hzero)
      simp only [List.length_append] at hspan
      refine ih hfound ?_ h
      simp only [inner, last, List.length_cons, List.reverseAux_eq, List.length_append,
        List.length_reverse, List.length_tail] at hbound hclosed ⊢
      omega
  | case9 => cases h
  | case10 letters found after hnone ih =>
      simp only [List.length_cons] at hbound ih
      exact ih hfound (by omega) h
  | case11 letters found after node next hnode ih =>
      have hlength := expansion_length_le hnode
      have hheight := expansion_height hparse hnode
      simp only [List.length_cons, List.length_nil] at hbound ih
      exact ih (List.forall_mem_cons.mpr ⟨by omega, flush_height hfound (by omega)⟩) (by omega) h
  | case12 letters found c after _ _ _ _ _ ih =>
      simp only [List.length_cons] at hbound ih
      exact ih hfound (by omega) h

theorem parse_height (hparse : parse.Bounded) {position : Position} {text : List Char}
    {parts : List Node} (h : Word.parse parse position text = .ok parts) :
    Node.heights parts ≤ 8 * text.length :=
  Node.heights_le (fragments_height hparse (by simp) (by simp) h)

end

end Word

end Conch.Syntax
