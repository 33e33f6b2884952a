import Conch.Proofs.Words.Fragments

/-!
# Where fragments and errors come from

A word is divided into literals, expansions and quoted stretches of both, and the programs
among them are what its command substitutions hold (`parse_fragments`).  Where a program
cannot be read, its error is the error of the word as it is (`parse_blames`).
-/

namespace Conch.Syntax.Word

section

variable {parse : ProgramParser} {place : List Char → Position}

/-! ## Fragments -/

/-- The text of a command substitution stands in the text. -/
def Encloses (text body : List Char) : Prop := '$' :: '(' :: (body ++ [')']) <:+: text

theorem Encloses.mono {text rest body : List Char} (h : Encloses rest body)
    (hrest : rest <:+ text) : Encloses text body := h.trans hrest.isInfix

theorem encloses_split (body rest : List Char) :
    Encloses ('$' :: '(' :: (body ++ ')' :: rest)) body :=
  List.IsPrefix.isInfix ⟨rest, by simp⟩

/-- A literal or an expansion; a program among them was read from a substitution in the text. -/
inductive IsStretch (parse : ProgramParser) (text : List Char) : Node → Prop
  | literal (letters : String) : IsStretch parse text (.literal letters)
  | parameter (short : Bool) (name : String) : IsStretch parse text (.parameter short name)
  | arithmetic (expression : String) : IsStretch parse text (.arithmetic expression)
  | substitution {body : List Char} {program : Program} (hbody : Encloses text body)
      (h : parse body = .ok program) : IsStretch parse text (.substitution program)

inductive IsFragment (parse : ProgramParser) (text : List Char) : Node → Prop
  | stretch {n : Node} (h : IsStretch parse text n) : IsFragment parse text n
  | quoted {parts : List Node} (h : ∀ n ∈ parts, IsStretch parse text n) :
      IsFragment parse text (.quoted parts)

theorem IsStretch.mono {text rest : List Char} {n : Node} (h : IsStretch parse rest n)
    (hrest : rest <:+ text) : IsStretch parse text n := by
  cases h with
  | literal => exact .literal _
  | parameter => exact .parameter _ _
  | arithmetic => exact .arithmetic _
  | substitution hbody h => exact .substitution (hbody.mono hrest) h

theorem substitution_stretch {text body rest rest' : List Char} {node : Node}
    (hbody : Encloses text body) (h : substitution parse body rest = .ok (some (node, rest'))) :
    IsStretch parse text node ∧ rest' = rest := by
  obtain ⟨program, rfl, hprogram, hrest⟩ := substitution_eq_ok h
  exact ⟨.substitution hbody hprogram, hrest⟩

theorem expansion_stretch {text rest : List Char} {node : Node}
    (h : expansion parse place text = .ok (some (node, rest))) :
    IsStretch parse ('$' :: text) node ∧ rest <:+ text := by
  unfold expansion at h
  split at h
  · split at h
    · cases h
    · rename_i inside _ body after hsplit
      rw [Delimited.split_eq_ok hsplit]
      have hsuffix : after <:+ '(' :: (body ++ ')' :: after) :=
        ((List.suffix_cons ..).trans (List.suffix_append ..)).trans (List.suffix_cons ..)
      split at h
      · cases h
        exact ⟨.arithmetic _, hsuffix⟩
      · obtain ⟨hnode, rfl⟩ := substitution_stretch (encloses_split body after) h
        exact ⟨hnode, hsuffix⟩
  · split at h
    · cases h
    · rename_i inside _ body after hsplit
      rw [Substitution.split_eq_some hsplit]
      obtain ⟨hnode, rfl⟩ := substitution_stretch (encloses_split body after) h
      refine ⟨hnode, ?_⟩
      exact ((List.suffix_cons ..).trans (List.suffix_append ..)).trans (List.suffix_cons ..)
  · split at h
    · cases h
    · rename_i inside _ body after hsplit
      cases h
      refine ⟨.parameter _ _, ?_⟩
      rw [Delimited.split_eq_ok hsplit]
      exact ((List.suffix_cons ..).trans (List.suffix_append ..)).trans (List.suffix_cons ..)
  · split at h
    · cases h
      exact ⟨.parameter _ _, (List.dropWhile_suffix _).trans (List.suffix_cons ..)⟩
    · split at h
      · cases h
        exact ⟨.parameter _ _, List.suffix_cons ..⟩
      · cases h
  · cases h

theorem flush_forall {P : Node → Prop} {letters : List Char} {found : List Node}
    (hliteral : ∀ text, P (.literal text)) (hfound : ∀ n ∈ found, P n) :
    ∀ n ∈ flush letters found, P n := by
  unfold flush
  split
  · exact hfound
  · exact List.forall_mem_cons.mpr ⟨hliteral _, hfound⟩

theorem quotedFragments_stretches {letters text whole rest : List Char} {found nodes : List Node}
    (hfound : ∀ n ∈ found, IsStretch parse whole n) (hwhole : text <:+ whole)
    (h : quotedFragments parse place letters found text = .ok (nodes, rest)) :
    (∀ n ∈ nodes, IsStretch parse whole n) ∧ rest <:+ text := by
  have hend : ∀ {letters found}, (∀ n ∈ found, IsStretch parse whole n) →
      ∀ n ∈ (flush letters found).reverse, IsStretch parse whole n :=
    fun hfound n hn => flush_forall .literal hfound n (List.mem_reverse.mp hn)
  fun_induction quotedFragments parse place letters found text with
  | case1 letters found =>
      cases h
      exact ⟨hend hfound, List.suffix_rfl⟩
  | case2 letters found after =>
      cases h
      exact ⟨hend hfound, List.suffix_rfl⟩
  | case3 letters found =>
      cases h
      exact ⟨hend hfound, List.suffix_cons ..⟩
  | case4 letters found c after ih =>
      have hafter : after <:+ '\\' :: c :: after :=
        (List.suffix_cons ..).trans (List.suffix_cons ..)
      obtain ⟨hnodes, hsuffix⟩ := ih hfound (hafter.trans hwhole) h
      exact ⟨hnodes, hsuffix.trans hafter⟩
  | case5 => cases h
  | case6 letters found after hnone ih =>
      have hafter : after <:+ '$' :: after := List.suffix_cons ..
      obtain ⟨hnodes, hsuffix⟩ := ih hfound (hafter.trans hwhole) h
      exact ⟨hnodes, hsuffix.trans hafter⟩
  | case7 letters found after node next hnode ih =>
      obtain ⟨hstretch, hnext⟩ := expansion_stretch hnode
      have hafter : next <:+ '$' :: after := hnext.trans (List.suffix_cons ..)
      obtain ⟨hnodes, hsuffix⟩ := ih (List.forall_mem_cons.mpr
        ⟨hstretch.mono hwhole, flush_forall .literal hfound⟩) (hafter.trans hwhole) h
      exact ⟨hnodes, hsuffix.trans hafter⟩
  | case8 letters found c after _ _ _ _ ih =>
      have hafter : after <:+ c :: after := List.suffix_cons ..
      obtain ⟨hnodes, hsuffix⟩ := ih hfound (hafter.trans hwhole) h
      exact ⟨hnodes, hsuffix.trans hafter⟩

theorem fragments_fragments {letters text whole : List Char} {found nodes : List Node}
    (hfound : ∀ n ∈ found, IsFragment parse whole n) (hwhole : text <:+ whole)
    (h : fragments parse place letters found text = .ok nodes) :
    ∀ n ∈ nodes, IsFragment parse whole n := by
  have hliteral : ∀ text, IsFragment parse whole (.literal text) :=
    fun text => .stretch (.literal text)
  have hend : ∀ {letters found}, (∀ n ∈ found, IsFragment parse whole n) →
      ∀ n ∈ (flush letters found).reverse, IsFragment parse whole n :=
    fun hfound n hn => flush_forall hliteral hfound n (List.mem_reverse.mp hn)
  fun_induction fragments parse place letters found text with
  | case1 letters found =>
      cases h
      exact hend hfound
  | case2 => cases h
  | case3 => cases h
  | case4 letters found rest inner after hquoted hafter ih =>
      have hrest : rest <:+ whole := (List.suffix_cons ..).trans hwhole
      obtain ⟨hinner, hsuffix⟩ := quotedFragments_stretches (by simp) hrest hquoted
      exact ih (List.forall_mem_cons.mpr ⟨.quoted hinner, flush_forall hliteral hfound⟩)
        ((List.tail_suffix after).trans (hsuffix.trans hrest)) h
  | case5 letters found =>
      cases h
      exact hend hfound
  | case6 letters found c rest ih =>
      exact ih hfound (((List.suffix_cons ..).trans (List.suffix_cons ..)).trans hwhole) h
  | case7 => cases h
  | case8 letters found rest inner after hafter ih =>
      have hrest : rest <:+ whole := (List.suffix_cons ..).trans hwhole
      exact ih hfound (((List.tail_suffix _).trans (List.dropWhile_suffix _)).trans hrest) h
  | case9 => cases h
  | case10 letters found rest hnone ih => exact ih hfound ((List.suffix_cons ..).trans hwhole) h
  | case11 letters found rest node after hnode ih =>
      obtain ⟨hstretch, hafter⟩ := expansion_stretch hnode
      exact ih (List.forall_mem_cons.mpr
        ⟨.stretch (hstretch.mono hwhole), flush_forall hliteral hfound⟩)
        ((hafter.trans (List.suffix_cons ..)).trans hwhole) h
  | case12 letters found c rest _ _ _ _ _ ih =>
      exact ih hfound ((List.suffix_cons ..).trans hwhole) h

/-- The fragments of a word. -/
theorem parse_fragments {position : Position} {text : List Char} {parts : List Node}
    (h : Word.parse parse position text = .ok parts) : ∀ n ∈ parts, IsFragment parse text n :=
  fragments_fragments (by simp) List.suffix_rfl h

theorem IsStretch.substituted {text : List Char} {n : Node} (h : IsStretch parse text n) :
    ∀ body ∈ n.substituted, ∃ source, Encloses text source ∧ parse source = .ok body := by
  intro body hbody
  cases h with
  | substitution hsource h =>
      obtain rfl := List.mem_singleton.mp hbody
      exact ⟨_, hsource, h⟩
  | _ => cases hbody

/-- The programs of a word were read from the texts of its substitutions. -/
theorem parse_programs {position : Position} {text : List Char} {parts : List Node}
    (h : Word.parse parse position text = .ok parts) :
    ∀ body ∈ (Node.word parts).bodies, ∃ source, Encloses text source ∧
      parse source = .ok body := by
  intro body hbody
  obtain ⟨n, hn, hbody⟩ := List.mem_flatMap.mp hbody
  cases parse_fragments h n hn with
  | quoted hparts =>
      obtain ⟨part, hpart, hbody⟩ := List.mem_flatMap.mp hbody
      exact (hparts part hpart).substituted body hbody
  | stretch hstretch =>
      have hsame : n.programs = n.substituted := by cases hstretch <;> rfl
      exact hstretch.substituted body (hsame ▸ hbody)

/-! ## Errors -/

/-- The error is that of a program which the text substitutes, unless no token is unexpected. -/
def Blames (parse : ProgramParser) (text : List Char) (e : ParseError) : Prop :=
  (∀ token, e.cause ≠ .unexpectedToken token) ∨ ∃ body, Encloses text body ∧ parse body = .error e

theorem Blames.mono {text rest : List Char} {e : ParseError} (h : Blames parse rest e)
    (hrest : rest <:+ text) : Blames parse text e :=
  h.imp_right fun ⟨body, hbody, he⟩ => ⟨body, hbody.mono hrest, he⟩

theorem scan_cause {opening closing : Char} {quoting : Delimited.Quoting} {depth : Nat}
    {seen text : List Char} {cause : ParseError.Cause}
    (h : Delimited.scan opening closing quoting depth seen text = .error cause) :
    ∀ token, cause ≠ .unexpectedToken token := by
  fun_induction Delimited.scan opening closing quoting depth seen text with
  | case1 quoting depth seen =>
      cases h
      unfold Delimited.missing
      split <;> simp
  | case2 _ _ _ _ _ _ _ _ ih => exact ih h
  | case3 =>
      cases h
      simp
  | case4 _ _ _ _ _ _ _ ih => exact ih h
  | case5 => cases h

theorem substitution_error {body rest : List Char} {e : ParseError}
    (h : substitution parse body rest = .error e) : parse body = .error e := by
  unfold substitution at h
  split at h
  · rename_i hbody
    cases h
    exact hbody
  · cases h

theorem expansion_blames {text : List Char} {e : ParseError}
    (h : expansion parse place text = .error e) : Blames parse ('$' :: text) e := by
  unfold expansion at h
  split at h
  · split at h
    · rename_i hsplit
      cases h
      exact .inl (scan_cause hsplit)
    · rename_i inside _ body after hsplit
      split at h
      · cases h
      · refine .inr ⟨body, ?_, substitution_error h⟩
        rw [Delimited.split_eq_ok hsplit]
        exact encloses_split body after
  · split at h
    · cases h
      exact .inl (by simp)
    · rename_i inside _ body after hsplit
      refine .inr ⟨body, ?_, substitution_error h⟩
      rw [Substitution.split_eq_some hsplit]
      exact encloses_split body after
  · split at h
    · rename_i hsplit
      cases h
      exact .inl (scan_cause hsplit)
    · cases h
  · split at h
    · cases h
    · split at h <;> cases h
  · cases h

theorem quotedFragments_blames {letters text : List Char} {found : List Node} {e : ParseError}
    (h : quotedFragments parse place letters found text = .error e) : Blames parse text e := by
  fun_induction quotedFragments parse place letters found text with
  | case1 => cases h
  | case2 => cases h
  | case3 => cases h
  | case4 letters found c after ih =>
      exact (ih h).mono ((List.suffix_cons ..).trans (List.suffix_cons ..))
  | case5 letters found after e' hexpansion =>
      cases h
      exact expansion_blames hexpansion
  | case6 letters found after hnone ih => exact (ih h).mono (List.suffix_cons ..)
  | case7 letters found after node next hnode ih =>
      exact (ih h).mono ((expansion_stretch hnode).2.trans (List.suffix_cons ..))
  | case8 letters found c after _ _ _ _ ih => exact (ih h).mono (List.suffix_cons ..)

theorem fragments_blames {letters text : List Char} {found : List Node} {e : ParseError}
    (h : fragments parse place letters found text = .error e) : Blames parse text e := by
  fun_induction fragments parse place letters found text with
  | case1 => cases h
  | case2 letters found rest e' hquoted =>
      cases h
      exact (quotedFragments_blames hquoted).mono (List.suffix_cons ..)
  | case3 =>
      cases h
      exact .inl (by simp)
  | case4 letters found rest inner after hquoted hafter ih =>
      have hrest := (quotedFragments_stretches (by simp) List.suffix_rfl hquoted).2
      exact (ih h).mono ((List.tail_suffix after).trans (hrest.trans (List.suffix_cons ..)))
  | case5 => cases h
  | case6 letters found c rest ih =>
      exact (ih h).mono ((List.suffix_cons ..).trans (List.suffix_cons ..))
  | case7 =>
      cases h
      exact .inl (by simp)
  | case8 letters found rest inner after hafter ih =>
      refine (ih h).mono ((List.tail_suffix _).trans ?_)
      exact (List.dropWhile_suffix _).trans (List.suffix_cons ..)
  | case9 letters found rest e' hexpansion =>
      cases h
      exact expansion_blames hexpansion
  | case10 letters found rest hnone ih => exact (ih h).mono (List.suffix_cons ..)
  | case11 letters found rest node after hnode ih =>
      exact (ih h).mono ((expansion_stretch hnode).2.trans (List.suffix_cons ..))
  | case12 letters found c rest _ _ _ _ _ ih => exact (ih h).mono (List.suffix_cons ..)

/-- What is wrong with a word. -/
theorem parse_blames {position : Position} {text : List Char} {e : ParseError}
    (h : Word.parse parse position text = .error e) : Blames parse text e := fragments_blames h

end

end Conch.Syntax.Word
