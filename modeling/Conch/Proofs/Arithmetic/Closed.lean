import Conch.Arithmetic.Evaluation
import Conch.Proofs.Arithmetic.Derivations

/-!
# Expressions without variables

What evaluation does when it is run.  An expression that names no variable has one result,
which does not depend on the variables and leaves them as they are
(`Expression.settles_of_isClosed`), and tokens without a name spell no other expression
(`isClosed_of_ofTokens`).
-/

namespace Conch.Arithmetic

theorem run_bind {α β : Type} (body : Evaluation α) (next : α → Evaluation β)
    (before : Bindings String) :
    (body >>= next).run before =
      match body.run before with
      | (.ok a, after) => (next a).run after
      | (.error fault, after) => (.error fault, after) := by
  have hstate : ∀ {σ γ δ : Type} (first : StateM σ γ) (rest : γ → StateM σ δ) (s : σ),
      (first >>= rest) s = rest (first s).1 (first s).2 := fun _ _ _ => rfl
  rw [ExceptT.run_bind, hstate]
  rcases body.run before with ⟨_ | _, _⟩ <;> rfl

theorem run_bind_of_ok {α β : Type} {body : Evaluation α} {before after : Bindings String} {a : α}
    (h : body.run before = (.ok a, after)) (next : α → Evaluation β) :
    (body >>= next).run before = (next a).run after := by
  rw [run_bind, h]

theorem run_bind_of_error {α β : Type} {body : Evaluation α} {before after : Bindings String}
    {fault : Fault} (h : body.run before = (.error fault, after)) (next : α → Evaluation β) :
    (body >>= next).run before = (.error fault, after) := by
  rw [run_bind, h]

theorem run_bind_eq_ok {α β : Type} {body : Evaluation α} {next : α → Evaluation β}
    {before after : Bindings String} {b : β} (h : (body >>= next).run before = (.ok b, after)) :
    ∃ a middle, body.run before = (.ok a, middle) ∧ (next a).run middle = (.ok b, after) := by
  rw [run_bind] at h
  split at h
  · rename_i a middle hbody
    exact ⟨a, middle, hbody, h⟩
  · cases h

theorem run_liftExcept (result : Except Fault Int64) (before : Bindings String) :
    (Expression.evaluate.liftExcept result).run before = (result, before) := by
  cases result <;> rfl

/-- The computation gives the result and changes no variable. -/
def Evaluation.Settles {α : Type} (body : Evaluation α) (result : Except Fault α) : Prop :=
  ∀ before, body.run before = (result, before)

theorem Evaluation.Settles.bind {α β : Type} {body : Evaluation α} {result : Except Fault α}
    {next : α → Evaluation β} {rest : α → Except Fault β} (hbody : body.Settles result)
    (hnext : ∀ a, (next a).Settles (rest a)) : (body >>= next).Settles (result >>= rest) := by
  intro before
  cases result with
  | error fault => exact run_bind_of_error (hbody before) next
  | ok a => exact (run_bind_of_ok (hbody before) next).trans (hnext a before)

theorem Evaluation.settles_pure {α : Type} (a : α) : (pure a : Evaluation α).Settles (.ok a) :=
  fun _ => rfl

namespace Expression

/-- The expression has no variables and no assignments. -/
def isClosed : Expression → Bool
  | .number _ => true
  | .variable _ => false
  | .unary _ operand => operand.isClosed
  | .binary _ left right => left.isClosed && right.isClosed
  | .conditional test consequent alternative =>
      test.isClosed && consequent.isClosed && alternative.isClosed
  | .assign .. => false

theorem evaluate_binary {op : BinaryOperator} (hand : op ≠ .and) (hor : op ≠ .or)
    (resolve : String → Evaluation Int64) (left right : Expression) :
    (Expression.binary op left right).evaluate resolve =
      left.evaluate resolve >>= fun first =>
        right.evaluate resolve >>= fun second => evaluate.liftExcept (op.apply first second) := by
  rw [evaluate]
  · exact hand
  · exact hor

/-- Without variables there is one result, however variables are resolved. -/
theorem settles_of_isClosed {e : Expression} (h : e.isClosed = true) :
    ∃ result, ∀ resolve, (e.evaluate resolve).Settles result := by
  induction e with
  | number value => exact ⟨_, fun _ => Evaluation.settles_pure value⟩
  | «variable» name => cases h
  | unary op operand ih =>
      obtain ⟨result, hresult⟩ := ih h
      exact ⟨_, fun resolve => (hresult resolve).bind fun value =>
        Evaluation.settles_pure (op.apply value)⟩
  | binary op left right ihleft ihright =>
      obtain ⟨hleft, hright⟩ := Bool.and_eq_true_iff.mp h
      obtain ⟨first, hfirst⟩ := ihleft hleft
      obtain ⟨second, hsecond⟩ := ihright hright
      -- these two leave out their second operand when the first decides
      by_cases hand : op = .and
      · subst hand
        refine ⟨first >>= fun a =>
            if a = 0 then .ok 0 else second >>= fun b => .ok (ofBool (b != 0)),
          fun resolve => (hfirst resolve).bind fun a => ?_⟩
        split
        · exact Evaluation.settles_pure 0
        · exact (hsecond resolve).bind fun b => Evaluation.settles_pure _
      by_cases hor : op = .or
      · subst hor
        refine ⟨first >>= fun a =>
            if a ≠ 0 then .ok 1 else second >>= fun b => .ok (ofBool (b != 0)),
          fun resolve => (hfirst resolve).bind fun a => ?_⟩
        split
        · exact Evaluation.settles_pure 1
        · exact (hsecond resolve).bind fun b => Evaluation.settles_pure _
      refine ⟨first >>= fun a => second >>= fun b => op.apply a b, fun resolve => ?_⟩
      rw [evaluate_binary hand hor]
      exact (hfirst resolve).bind fun a => (hsecond resolve).bind fun b =>
        run_liftExcept (op.apply a b)
  | conditional test consequent alternative ihtest ihconsequent ihalternative =>
      obtain ⟨h, halternative⟩ := Bool.and_eq_true_iff.mp h
      obtain ⟨htest, hconsequent⟩ := Bool.and_eq_true_iff.mp h
      obtain ⟨first, hfirst⟩ := ihtest htest
      obtain ⟨second, hsecond⟩ := ihconsequent hconsequent
      obtain ⟨third, hthird⟩ := ihalternative halternative
      refine ⟨first >>= fun a => if a ≠ 0 then second else third,
        fun resolve => (hfirst resolve).bind fun a => ?_⟩
      split
      · exact hsecond resolve
      · exact hthird resolve
  | assign name op value => cases h

end Expression

/-! ## Tokens without a name -/

def Token.isName : Token → Bool
  | .name _ => true
  | _ => false

/-- The operand that is extended, if there is one, has no variables. -/
def Phrase.isClosed : Phrase → Bool
  | .climb _ left => left.isClosed
  | _ => true

theorem Derives.isClosed {phrase : Phrase} {tokens rest : List Token} {e : Expression}
    (h : Derives phrase tokens e rest) (hphrase : phrase.isClosed = true)
    (htokens : tokens.any Token.isName = false) :
    e.isClosed = true ∧ rest.any Token.isName = false := by
  induction h with
  | assign | «variable» => simp [Token.isName] at htokens
  | whole _ _ ih | test _ _ ih | primary _ _ ih => exact ih hphrase htokens
  | choice _ _ _ ihtest ihconsequent ihalternative =>
      obtain ⟨htest, hmark⟩ := ihtest rfl htokens
      obtain ⟨hconsequent, hcolon⟩ := ihconsequent rfl hmark
      obtain ⟨halternative, hrest⟩ := ihalternative rfl hcolon
      exact ⟨by simp [Expression.isClosed, htest, hconsequent, halternative], hrest⟩
  | operand _ _ ihleft ih =>
      obtain ⟨hleft, hmiddle⟩ := ihleft rfl htokens
      exact ih hleft hmiddle
  | stop => exact ⟨hphrase, htokens⟩
  | operator _ _ _ _ ihright ih =>
      obtain ⟨hright, hmiddle⟩ := ihright rfl htokens
      exact ih (Bool.and_eq_true_iff.mpr ⟨hphrase, hright⟩) hmiddle
  | unary _ _ ih => exact ih rfl htokens
  | number => exact ⟨rfl, htokens⟩
  | group _ ih => exact ih rfl htokens

theorem isClosed_of_ofTokens {tokens : List Token} {e : Expression}
    (h : Expression.ofTokens tokens = .ok e) (htokens : tokens.any Token.isName = false) :
    e.isClosed = true := by
  cases tokens with
  | nil =>
      cases h
      rfl
  | cons token tokens =>
      exact (((ofTokens_eq_ok (List.cons_ne_nil _ _)).mp h).isClosed rfl htokens).1

end Conch.Arithmetic
