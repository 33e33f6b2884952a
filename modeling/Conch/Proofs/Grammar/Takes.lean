import Conch.Proofs.Grammar.Ensures

/-!
# How much a grammar takes

`g.Takes P` says that every result of the grammar `g` has the property `P` together with
the weight of the lexemes that were read for it.  The weight of a text's lexemes is at
most its length, so what is bounded by the weight is bounded by the text.
-/

namespace Conch.Syntax

/-- A word weighs as much as it has characters, an operator at least one. -/
def Lexeme.weight (lexeme : Lexeme) : Nat :=
  match lexeme.kind with
  | .word => lexeme.text.length
  | .op _ => 1
  | .descriptor | .newline => 0

def Lexeme.weights : List Lexeme → Nat
  | [] => 0
  | lexeme :: rest => lexeme.weight + weights rest

theorem Lexeme.weights_append (items others : List Lexeme) :
    weights (items ++ others) = weights items + weights others := by
  induction items with
  | nil => simp [weights]
  | cons lexeme rest ih => simp [weights, ih, Nat.add_assoc]

theorem Lexeme.weights_reverse (items : List Lexeme) : weights items.reverse = weights items := by
  induction items with
  | nil => rfl
  | cons lexeme rest ih => simp [weights_append, weights, ih, Nat.add_comm]

def Lexemes.weight (stream : Lexemes) : Nat := Lexeme.weights stream.items

@[simp] theorem Lexemes.weight_nil (finish : Position) : Lexemes.weight ⟨[], finish⟩ = 0 := rfl

@[simp] theorem Lexemes.weight_cons (lexeme : Lexeme) (items : List Lexeme) (finish : Position) :
    Lexemes.weight ⟨lexeme :: items, finish⟩ = lexeme.weight + Lexemes.weight ⟨items, finish⟩ := rfl

theorem Lexeme.weight_pos {lexeme : Lexeme} {token : Token} (h : lexeme.token? = some token) :
    0 < lexeme.weight := by
  unfold Lexeme.token? at h
  unfold Lexeme.weight
  split at h
  · rename_i hkind
    simp [hkind]
  · rename_i hkind
    rw [hkind]
    have htext : lexeme.text ≠ "" := by
      intro htext
      rw [htext] at h
      cases h
    exact Nat.pos_of_ne_zero fun hlength => htext (String.length_eq_zero_iff.mp hlength)
  · cases h

namespace Grammar

variable {α β : Type} {P Q : Nat → α → Prop} {R : Nat → β → Prop}

/-- The same of a grammar that stands before these lexemes. -/
def TakesAt (stream : Lexemes) (g : Grammar α) (P : Nat → α → Prop) : Prop :=
  ∀ a rest, g stream = .ok (a, rest) → ∃ n, stream.weight = n + rest.weight ∧ P n a

def Takes (g : Grammar α) (P : Nat → α → Prop) : Prop := ∀ stream, TakesAt stream g P

namespace Takes

theorem weaken {g : Grammar α} (h : Takes g P) (hPQ : ∀ n a, P n a → Q n a) : Takes g Q := by
  intro stream a rest hg
  obtain ⟨n, hweight, ha⟩ := h stream a rest hg
  exact ⟨n, hweight, hPQ n a ha⟩

theorem pure {a : α} (h : P 0 a) : Takes (pure a) P := by
  intro stream b rest hg
  cases hg
  exact ⟨0, (Nat.zero_add _).symm, h⟩

theorem bind {g : Grammar α} {next : α → Grammar β} (hg : Takes g P)
    (hnext : ∀ n a, P n a → Takes (next a) fun m b => R (n + m) b) : Takes (g >>= next) R := by
  intro stream b rest h
  obtain ⟨a, middle, hfirst, hsecond⟩ := bind_eq_ok h
  obtain ⟨n, hn, ha⟩ := hg stream a middle hfirst
  obtain ⟨m, hm, hb⟩ := hnext n a ha middle b rest hsecond
  exact ⟨n + m, by rw [hn, hm, Nat.add_assoc], hb⟩

theorem cond {c : Prop} [Decidable c] {g h : Grammar α} (hg : Takes g P) (hh : Takes h P) :
    Takes (if c then g else h) P := by
  split
  · exact hg
  · exact hh

end Takes

/-! ## Single lexemes -/

theorem takes_unexpected : Takes unexpected P := by
  intro stream a rest h
  unfold unexpected at h
  split at h <;> cases h

theorem takes_failHere {cause : ParseError.Cause} : Takes (failHere cause) P := by
  intro stream a rest h
  cases h

theorem takes_failAt {position : Position} {cause : ParseError.Cause} :
    Takes (failAt position cause) P := by
  intro stream a rest h
  cases h

/-- A grammar that looks at the front lexeme first. -/
theorem takes_current {next : Option Lexeme → Grammar β} (hnone : Takes (next none) R)
    (hsome : ∀ lexeme items finish, TakesAt ⟨lexeme :: items, finish⟩ (next (some lexeme)) R) :
    Takes (current >>= next) R := by
  rintro ⟨_ | ⟨lexeme, items⟩, finish⟩ b rest h
  · exact hnone _ b rest h
  · exact hsome lexeme items finish b rest h

theorem TakesAt.advance {lexeme : Lexeme} {items : List Lexeme} {finish : Position}
    {next : Unit → Grammar β} (h : Takes (next ()) fun m b => R (lexeme.weight + m) b) :
    TakesAt ⟨lexeme :: items, finish⟩ (Grammar.advance >>= next) R := by
  intro b rest hnext
  obtain ⟨m, hm, hb⟩ := h ⟨items, finish⟩ b rest hnext
  exact ⟨lexeme.weight + m, by rw [Lexemes.weight_cons, hm, Nat.add_assoc], hb⟩

theorem TakesAt.cond {c : Prop} [Decidable c] {stream : Lexemes} {g h : Grammar α}
    (hg : c → TakesAt stream g P) (hh : TakesAt stream h P) :
    TakesAt stream (if c then g else h) P := by
  split
  · rename_i hc
    exact hg hc
  · exact hh

/-- Looking ahead reads nothing. -/
theorem TakesAt.look {stream : Lexemes} {g : Grammar α} {next : α → Grammar β} {a : α}
    (hg : g stream = .ok (a, stream)) (h : TakesAt stream (next a) R) :
    TakesAt stream (g >>= next) R := by
  intro b rest hnext
  rw [bind_ok hg] at hnext
  exact h b rest hnext

theorem takes_look {a : Lexemes → α} (h : ∀ a, P 0 a) :
    Takes (fun stream => .ok (a stream, stream)) P := by
  intro stream b rest hg
  cases hg
  exact ⟨0, (Nat.zero_add _).symm, h _⟩

theorem takes_front : Takes current fun _ _ => True := takes_look fun _ => trivial

theorem takes_remaining : Takes remaining fun _ _ => True := takes_look fun _ => trivial

theorem takes_atOperator (token : Token) : Takes (atOperator token) fun _ _ => True :=
  takes_look fun _ => trivial

theorem takes_atToken (token : Token) : Takes (atToken token) fun _ _ => True :=
  takes_look fun _ => trivial

theorem takes_nextIs (token : Token) : Takes (nextIs token) fun _ _ => True :=
  takes_look fun _ => trivial

theorem takes_advance : Takes advance fun _ _ => True := by
  rintro ⟨_ | ⟨lexeme, items⟩, finish⟩ a rest h
  · cases h
    exact ⟨0, (Nat.zero_add _).symm, trivial⟩
  · cases h
    exact ⟨lexeme.weight, Lexemes.weight_cons .., trivial⟩

theorem takes_skipNewlines : Takes skipNewlines fun _ _ => True := by
  rintro ⟨items, finish⟩ a rest h
  cases h
  refine ⟨Lexeme.weights (items.takeWhile fun lexeme => lexeme.kind == .newline), ?_, trivial⟩
  rw [Lexemes.weight, Lexemes.weight, ← Lexeme.weights_append, List.takeWhile_append_dropWhile]

/-- Reads a lexeme that stands for a token. -/
theorem takes_ifToken {c : Grammar Bool} {test : Lexeme → Bool} {next other : Grammar β}
    (hc : ∀ stream, c stream = .ok (stream.items.head?.any test, stream))
    (htest : ∀ lexeme, test lexeme = true → 0 < lexeme.weight)
    (hnext : ∀ n, 0 < n → Takes next fun m b => R (n + m) b) (hother : Takes other R) :
    Takes (do if ← c then do { advance; next } else other) R := by
  intro stream b rest h
  have hrun : (if stream.items.head?.any test = true then advance >>= fun _ => next else other)
      stream = .ok (b, rest) := by
    rw [← h, bind_ok (hc stream)]
  split at hrun
  · rename_i htrue
    obtain ⟨_ | ⟨lexeme, items⟩, finish⟩ := stream
    · cases htrue
    · exact TakesAt.advance (hnext _ (htest lexeme (by simpa using htrue))) b rest hrun
  · exact hother stream b rest hrun

theorem takes_ifOperator (token : Token) {next other : Grammar β}
    (hnext : ∀ n, 0 < n → Takes next fun m b => R (n + m) b) (hother : Takes other R) :
    Takes (do if ← atOperator token then do { advance; next } else other) R := by
  refine takes_ifToken (fun _ => rfl) (fun lexeme h => ?_) hnext hother
  refine Lexeme.weight_pos (?_ : lexeme.token? = some token)
  simp [Lexeme.token?, eq_of_beq h]

theorem takes_expect (token : Token) : Takes (expect token) fun n _ => 0 < n := by
  rintro ⟨_ | ⟨lexeme, items⟩, finish⟩ a rest h
  · cases h
  · have hrun : (if (lexeme.token? == some token) = true then advance else unexpected)
        ⟨lexeme :: items, finish⟩ = .ok (a, rest) := h
    split at hrun
    · rename_i htoken
      cases hrun
      exact ⟨lexeme.weight, Lexemes.weight_cons .., Lexeme.weight_pos (eq_of_beq htoken)⟩
    · cases hrun

theorem takes_skipEmptyEnd : Takes skipEmptyEnd fun _ _ => True := by
  refine (takes_atOperator .semicolon).bind fun _ _ _ => ?_
  refine (takes_nextIs .esacWord).bind fun _ _ _ => ?_
  exact .cond takes_advance (.pure trivial)

/-! ## Repetitions -/

section

variable (hmono : ∀ k n a, P k a → P (k + n) a)

include hmono

theorem takes_collect {step : Grammar (Option α)}
    (hstep : Takes step fun n found => ∀ a ∈ found, P n a) (bound : List Lexeme) (k : Nat)
    {found : List α} (hfound : ∀ a ∈ found, P k a) :
    Takes (collect step bound found) fun n results => ∀ a ∈ results, P (k + n) a := by
  have hmore : ∀ {k n : Nat} {found : List α} {a : α}, (∀ b ∈ found, P k b) → P n a →
      ∀ b ∈ a :: found, P (k + n) b := by
    intro k n found a hfound ha b hb
    rcases List.mem_cons.mp hb with rfl | hb
    · rw [Nat.add_comm]
      exact hmono n k b ha
    · exact hmono k n b (hfound b hb)
  have hlast : ∀ {k n : Nat} {found : List α}, (∀ b ∈ found, P k b) →
      Takes (pure found.reverse : Grammar (List α)) fun m results =>
        ∀ a ∈ results, P (k + (n + m)) a := fun hfound =>
    .pure fun a ha => hmono _ _ a (hfound a (List.mem_reverse.mp ha))
  induction bound generalizing k found with
  | nil =>
      unfold collect
      refine hstep.bind fun n next hnext => ?_
      cases next with
      | none => exact hlast hfound
      | some a =>
          have hall := hmore hfound (hnext a rfl)
          exact .pure fun b hb => hall b (List.mem_reverse.mp hb)
  | cons lexeme bound ih =>
      unfold collect
      refine hstep.bind fun n next hnext => ?_
      cases next with
      | none => exact hlast hfound
      | some a =>
          refine (ih (k + n) (hmore hfound (hnext a rfl))).weaken fun m results h b hb => ?_
          rw [← Nat.add_assoc]
          exact h b hb

theorem takes_many {step : Grammar (Option α)}
    (hstep : Takes step fun n found => ∀ a ∈ found, P n a) :
    Takes (many step) fun n results => ∀ a ∈ results, P n a :=
  takes_remaining.bind fun n bound _ =>
    (takes_collect hmono hstep bound 0 (by simp)).weaken fun m results h a ha => by
      rw [Nat.add_comm]
      exact hmono m n a (by simpa using h a ha)

theorem takes_extend {step : α → Grammar (Option α)}
    (hstep : ∀ k a, P k a → Takes (step a) fun n next => ∀ b ∈ next, P (k + n) b)
    (bound : List Lexeme) (k : Nat) {a : α} (ha : P k a) :
    Takes (extend step bound a) fun n b => P (k + n) b := by
  induction bound generalizing k a with
  | nil =>
      unfold extend
      refine (hstep k a ha).bind fun n next hnext => ?_
      cases next with
      | none => exact .pure (hmono k _ a ha)
      | some b => exact .pure (hnext b rfl)
  | cons lexeme bound ih =>
      unfold extend
      refine (hstep k a ha).bind fun n next hnext => ?_
      cases next with
      | none => exact .pure (hmono k _ a ha)
      | some b =>
          refine (ih (k + n) (hnext b rfl)).weaken fun m c hc => ?_
          rw [← Nat.add_assoc]
          exact hc

end

end Grammar

end Conch.Syntax
