import Conch.Proofs.Grammar.Ensures
import Conch.Proofs.Lexing.Lines

/-!
# What a grammar does when more follows

A grammar that was given some lexemes is run again on lexemes with the same symbols and
then more.  `Answers` says how the second answer follows from the first: it is the same
one, unless the grammar reached the end of the lexemes it had.  Lexemes that are closed by
a newline keep the look of the grammar from reaching over their end; nothing is asked of
them when no more lexemes follow, and then the answers differ in places only.
-/

namespace Conch.Syntax

/-- `t` holds lexemes with the symbols of those in `s`, and then `more`. -/
def Lexemes.Prolonged (more : List Lexeme) (s t : Lexemes) : Prop :=
  ∃ items, t.items = items ++ more ∧ items.map Lexeme.symbol = s.items.map Lexeme.symbol

/-- The lexemes do not end with a newline. -/
def Firm (items : List Lexeme) : Prop := ∀ lexeme ∈ items.getLast?, lexeme.kind ≠ .newline

/-- There are lexemes, and the last one is no newline. -/
def Solid (items : List Lexeme) : Prop := items ≠ [] ∧ Firm items

theorem Firm.nil : Firm [] := by simp [Firm]

theorem Firm.append {first second : List Lexeme} (hfirst : Firm first) (hsecond : Firm second) :
    Firm (first ++ second) := by
  intro lexeme hlexeme
  rw [List.getLast?_append] at hlexeme
  cases hlast : second.getLast? with
  | none =>
      rw [hlast, Option.none_or] at hlexeme
      exact hfirst lexeme hlexeme
  | some last =>
      rw [hlast, Option.some_or] at hlexeme
      exact hsecond lexeme (hlast ▸ hlexeme)

theorem Solid.append {first second : List Lexeme} (hsecond : Solid second) :
    Solid (first ++ second) := by
  refine ⟨by simp [hsecond.1], fun lexeme hlexeme => hsecond.2 lexeme ?_⟩
  rw [List.getLast?_append] at hlexeme
  cases hlast : second.getLast? with
  | none => exact absurd (List.getLast?_eq_none_iff.mp hlast) hsecond.1
  | some last => rwa [hlast, Option.some_or] at hlexeme

theorem Solid.append_firm {first second : List Lexeme} (hfirst : Solid first)
    (hsecond : Firm second) : Solid (first ++ second) :=
  ⟨by simp [hfirst.1], hfirst.2.append hsecond⟩

theorem Solid.singleton {lexeme : Lexeme} (h : lexeme.kind ≠ .newline) : Solid [lexeme] :=
  ⟨by simp, by simpa [Firm] using h⟩

theorem Closed.of_append {first second : List Lexeme} (h : Closed (first ++ second)) :
    Closed second := by
  intro lexeme hlexeme
  refine h lexeme ?_
  rw [List.getLast?_append, Option.mem_def.mp hlexeme]
  rfl

/-- Something is left of closed lexemes after some that do not end with a newline. -/
theorem Closed.ne_nil {first second : List Lexeme} (h : Closed (first ++ second))
    (hfirst : Solid first) : second ≠ [] := by
  rintro rfl
  rw [List.append_nil] at h
  obtain ⟨last, hlast⟩ := Option.ne_none_iff_exists'.mp
    (fun hnone => hfirst.1 (List.getLast?_eq_none_iff.mp hnone))
  exact hfirst.2 last hlast (h last hlast)

/-- What stands after the newlines at the front. -/
def Lexemes.pastNewlines (stream : Lexemes) : Lexemes :=
  { stream with items := stream.items.dropWhile (fun lexeme => lexeme.kind == .newline) }

namespace Lexemes.Prolonged

variable {more : List Lexeme} {s t : Lexemes}

theorem nil (hs : s.items = []) (finish : Position) : Prolonged more s ⟨more, finish⟩ :=
  ⟨[], rfl, by rw [hs]⟩

theorem eq_nil (h : Prolonged more s t) (hs : s.items = []) (hmore : more = []) :
    t.items = [] := by
  obtain ⟨items, ht, hitems⟩ := h
  rw [hs] at hitems
  rw [ht, List.map_eq_nil_iff.mp hitems, hmore]
  rfl

/-- The front lexemes have the same symbol. -/
theorem front {x : Lexeme} (h : Prolonged more s t) (hx : s.items.head? = some x) :
    ∃ y, t.items.head? = some y ∧ x.symbol = y.symbol := by
  obtain ⟨items, ht, hitems⟩ := h
  obtain ⟨rest, hrest⟩ := List.head?_eq_some_iff.mp hx
  rw [hrest] at hitems
  obtain ⟨y, others, rfl, hy, _⟩ := List.map_eq_cons_iff.mp hitems
  exact ⟨y, by rw [ht]; rfl, hy.symm⟩

theorem tail (h : Prolonged more s t) (hs : s.items ≠ []) (finish finish' : Position) :
    Prolonged more ⟨s.items.tail, finish⟩ ⟨t.items.tail, finish'⟩ := by
  obtain ⟨items, ht, hitems⟩ := h
  have hne : items ≠ [] := by
    rintro rfl
    exact hs (List.map_eq_nil_iff.mp hitems.symm)
  exact ⟨items.tail, by rw [ht, List.tail_append_of_ne_nil hne],
    by rw [List.map_tail, hitems, List.map_tail]⟩

theorem length_eq (h : Prolonged more s t) : t.items.length = s.items.length + more.length := by
  obtain ⟨items, ht, hitems⟩ := h
  have hlength := congrArg List.length hitems
  rw [List.length_map, List.length_map] at hlength
  rw [ht, List.length_append, hlength]

theorem dropNewlines {items : List Lexeme}
    (hitems : items.map Lexeme.symbol = s.items.map Lexeme.symbol) :
    (items.dropWhile (fun lexeme => lexeme.kind == .newline)).map Lexeme.symbol =
      s.pastNewlines.items.map Lexeme.symbol := by
  have h := congrArg (List.dropWhile (fun symbol : Symbol => symbol.kind == .newline)) hitems
  rwa [List.dropWhile_map, List.dropWhile_map] at h

theorem pastNewlines (h : Prolonged more s t) (hs : more = [] ∨ s.pastNewlines.items ≠ []) :
    Prolonged more s.pastNewlines t.pastNewlines := by
  obtain ⟨items, ht, hitems⟩ := h
  have hsymbols := dropNewlines hitems
  rcases hs with rfl | hs
  · refine ⟨_, ?_, hsymbols⟩
    rw [Lexemes.pastNewlines, ht, List.append_nil, List.append_nil]
  · have hne : items.dropWhile (fun lexeme => lexeme.kind == .newline) ≠ [] := by
      intro hnil
      rw [hnil] at hsymbols
      exact hs (List.map_eq_nil_iff.mp hsymbols.symm)
    refine ⟨_, ?_, hsymbols⟩
    rw [Lexemes.pastNewlines, ht, List.dropWhile_append, if_neg (by simpa using hne)]

/-- Nothing but newlines is as good as nothing. -/
theorem pastNewlines_eq (h : Prolonged more s t) (hs : s.pastNewlines.items = []) :
    t.pastNewlines = Lexemes.pastNewlines ⟨more, t.finish⟩ := by
  obtain ⟨items, ht, hitems⟩ := h
  have hsymbols := dropNewlines hitems
  rw [hs] at hsymbols
  rw [Lexemes.pastNewlines, ht, List.dropWhile_append,
    if_pos (by rw [List.map_eq_nil_iff.mp hsymbols]; rfl)]
  rfl

end Lexemes.Prolonged

namespace Grammar

variable {α β : Type} {more : List Lexeme}

/-- How the answer on prolonged lexemes follows from the answer on the lexemes `s` alone; `Q`
holds of the result and the lexemes used up for it. -/
inductive Answers (more : List Lexeme) (s : Lexemes) (Q : α → List Lexeme → Prop) :
    Except Failure (α × Lexemes) → Except Failure (α × Lexemes) → Prop
  /-- All lexemes were used up, so more of them might be used. -/
  | ended {a : α} {s' : Lexemes} {y : Except Failure (α × Lexemes)} (hmore : more ≠ [])
      (hs' : s'.items = []) (hQ : Q a s.items) : Answers more s Q (.ok (a, s')) y
  | ok {a : α} {used : List Lexeme} {s' t' : Lexemes} (hs : s.items = used ++ s'.items)
      (hQ : Q a used) (ht' : Lexemes.Prolonged more s' t') :
      Answers more s Q (.ok (a, s')) (.ok (a, t'))
  /-- The lexemes ended where the grammar needs more of them. -/
  | starved {e : Failure} {y : Except Failure (α × Lexemes)} (hmore : more ≠ [])
      (he : e.error.incomplete = true) : Answers more s Q (.error e) y
  | error {e f : Failure} (hs : more = [] ∨ s.items ≠ []) (hcause : e.error.cause = f.error.cause) :
      Answers more s Q (.error e) (.error f)

namespace Answers

variable {s : Lexemes} {Q R : α → List Lexeme → Prop} {x y : Except Failure (α × Lexemes)}

/-- A grammar that had nothing to read may do anything when there is something. -/
theorem of_nil (h : Answers more s Q x y) (hs : s.items = []) (hmore : more ≠ [])
    (z : Except Failure (α × Lexemes)) : Answers more s Q x z := by
  cases h with
  | ended _ hs' hQ => exact .ended hmore hs' hQ
  | ok hused hQ ht' =>
      rw [hs] at hused
      obtain ⟨rfl, hs'⟩ := List.append_eq_nil_iff.mp hused.symm
      exact .ended hmore hs' (hs ▸ hQ)
  | starved _ he => exact .starved hmore he
  | error hne hcause =>
      rcases hne with hne | hne
      · exact absurd hne hmore
      · exact absurd hs hne

/-- The answer after some lexemes, seen from before them. -/
theorem prepend {s' : Lexemes} {used : List Lexeme} (h : Answers more s' R x y)
    (hs : s.items = used ++ s'.items) (hQ : ∀ a rest, R a rest → Q a (used ++ rest)) :
    Answers more s Q x y := by
  cases h with
  | ended hmore hs' hR =>
      refine .ended hmore hs' ?_
      rw [hs]
      exact hQ _ _ hR
  | ok hused hR ht' => exact .ok (by rw [hs, hused, List.append_assoc]) (hQ _ _ hR) ht'
  | starved hmore he => exact .starved hmore he
  | error hne hcause =>
      refine .error (hne.imp_right (fun hne hnil => hne ?_)) hcause
      rw [hnil] at hs
      exact (List.append_eq_nil_iff.mp hs.symm).2

end Answers

/-- From lexemes with the property `P`, what `h` answers when more follows is what `g` answers
without. -/
def Follows (more : List Lexeme) (P : List Lexeme → Prop) (g h : Grammar α)
    (Q : α → List Lexeme → Prop) : Prop :=
  ∀ s t, Lexemes.Prolonged more s t → (more ≠ [] → Closed s.items) → P s.items →
    Answers more s Q (g s) (h t)

/-- The grammar gives the same answer when more follows. -/
def Steady (more : List Lexeme) (g : Grammar α) (Q : α → List Lexeme → Prop) : Prop :=
  Follows more (fun _ => True) g g Q

/-- Something is left to read. -/
def Going (more items : List Lexeme) : Prop := more ≠ [] → items ≠ []

/-- The front lexeme is there and is no newline. -/
def Begun (items : List Lexeme) : Prop := ∃ lexeme ∈ items.head?, lexeme.kind ≠ .newline

namespace Follows

variable {P P' : List Lexeme → Prop} {g h : Grammar α} {Q R : α → List Lexeme → Prop}

theorem weaken (hg : Follows more P g h Q) (hP : ∀ items, P' items → P items)
    (hQ : ∀ a used, Q a used → R a used) : Follows more P' g h R := by
  intro s t hst hclosed hs
  exact (hg s t hst hclosed (hP _ hs)).prepend (List.nil_append _).symm hQ

theorem pure {a : α} (h : Q a []) : Follows more P (pure a) (pure a) Q :=
  fun _ _ hst _ _ => .ok (List.nil_append _).symm h hst

theorem bind {k l : α → Grammar β} {S : α → β → List Lexeme → Prop}
    {T : β → List Lexeme → Prop} {N : α → List Lexeme → Prop} (hg : Follows more P g h Q)
    (hk : ∀ a, Follows more (N a) (k a) (l a) (S a))
    (hN : ∀ a used rest, P (used ++ rest) → Q a used → (more ≠ [] → Closed (used ++ rest)) →
      N a rest)
    (hT : ∀ a b used rest, Q a used → S a b rest → T b (used ++ rest)) :
    Follows more P (g >>= k) (h >>= l) T := by
  intro s t hst hclosed hs
  have hanswers := hg s t hst hclosed hs
  generalize hx : g s = x at hanswers
  generalize hy : h t = y at hanswers
  cases hanswers with
  | @ended a s' _ hmore hs' hQ =>
      have hitems : s.items = s.items ++ s'.items := by rw [hs', List.append_nil]
      have hrest := hk a s' ⟨more, s'.finish⟩ (.nil hs' _) (fun _ => by simp [hs', Closed])
        (hN a s.items _ (hitems ▸ hs) hQ (hitems ▸ hclosed))
      rw [bind_ok hx]
      exact (hrest.of_nil hs' hmore _).prepend hitems (fun b rest => hT a b _ rest hQ)
  | @ok a used s' t' hitems hQ ht' =>
      rw [hitems] at hs hclosed
      have hrest := hk a s' t' ht' (fun hmore => (hclosed hmore).of_append)
        (hN a used _ hs hQ hclosed)
      rw [bind_ok hx, bind_ok hy]
      exact hrest.prepend hitems (fun b rest => hT a b used rest hQ)
  | starved hmore he =>
      rw [bind_error hx]
      exact .starved hmore he
  | error hne hcause =>
      rw [bind_error hx, bind_error hy]
      exact .error hne hcause

theorem cond {c : Prop} [Decidable c] {g' h' : Grammar α} (hg : c → Follows more P g h Q)
    (hg' : ¬c → Follows more P g' h' Q) :
    Follows more P (if c then g else g') (if c then h else h') Q := by
  split
  · rename_i hc
    exact hg hc
  · rename_i hc
    exact hg' hc

/-- The last step of a sequence. -/
theorem map {f : α → β} {T : β → List Lexeme → Prop} (hg : Follows more P g h Q)
    (hT : ∀ a used, Q a used → T (f a) used) :
    Follows more P (do return f (← g)) (do return f (← h)) T := by
  refine hg.bind (fun a => .pure (Q := fun b rest => b = f a ∧ rest = []) ⟨rfl, rfl⟩)
    (fun _ _ _ _ _ _ => trivial) ?_
  rintro a _ used _ hused ⟨rfl, rfl⟩
  rw [List.append_nil]
  exact hT a used hused

end Follows

namespace Steady

variable {P : List Lexeme → Prop} {g : Grammar α} {Q : α → List Lexeme → Prop}

theorem follows (hg : Steady more g Q) : Follows more P g g Q :=
  hg.weaken (fun _ _ => trivial) (fun _ _ h => h)

theorem weaken {R : α → List Lexeme → Prop} (hg : Steady more g Q)
    (hQ : ∀ a used, Q a used → R a used) : Steady more g R :=
  Follows.weaken hg (fun _ h => h) hQ

theorem bind {k : α → Grammar β} {S : α → β → List Lexeme → Prop} {T : β → List Lexeme → Prop}
    (hg : Steady more g Q) (hk : ∀ a, Steady more (k a) (S a))
    (hT : ∀ a b used rest, Q a used → S a b rest → T b (used ++ rest)) :
    Steady more (g >>= k) T :=
  Follows.bind hg hk (fun _ _ _ _ _ _ => trivial) hT

/-- What holds of the last part of a sequence whatever stands before it. -/
theorem last {k : α → Grammar β} {T : β → List Lexeme → Prop} (hg : Steady more g Q)
    (hk : ∀ a, Steady more (k a) T) (hT : ∀ b used rest, T b rest → T b (used ++ rest)) :
    Steady more (g >>= k) T :=
  hg.bind hk (fun _ b used rest _ => hT b used rest)

/-- A sequence that ends firmly is solid as a whole. -/
theorem solid {k : α → Grammar β} (hg : Steady more g Q)
    (hk : ∀ a, Steady more (k a) (fun _ => Solid)) : Steady more (g >>= k) (fun _ => Solid) :=
  hg.last hk (fun _ _ _ h => h.append)

theorem map {f : α → β} {T : β → List Lexeme → Prop} (hg : Steady more g Q)
    (hT : ∀ a used, Q a used → T (f a) used) : Steady more (do return f (← g)) T :=
  Follows.map hg hT

/-- Nothing is asked of the lexemes used up. -/
theorem any {k : α → Grammar β} {S : α → β → List Lexeme → Prop} (hg : Steady more g Q)
    (hk : ∀ a, Steady more (k a) (S a)) : Steady more (g >>= k) (fun _ _ => True) :=
  hg.bind hk (fun _ _ _ _ _ _ => trivial)

end Steady

/-! ## Single lexemes -/

theorem kind_eq {x y : Lexeme} (h : x.symbol = y.symbol) : x.kind = y.kind :=
  congrArg Symbol.kind h

theorem text_eq {x y : Lexeme} (h : x.symbol = y.symbol) : x.text = y.text :=
  congrArg Symbol.text h

theorem token?_eq {x y : Lexeme} (h : x.symbol = y.symbol) : x.token? = y.token? := by
  rw [Lexeme.token?_eq, Lexeme.token?_eq, h]

theorem Begun.of_head? {items : List Lexeme} {lexeme : Lexeme} (h : items.head? = some lexeme)
    (hkind : lexeme.kind ≠ .newline) : Begun items := ⟨lexeme, h, hkind⟩

theorem Begun.going {items : List Lexeme} (h : Begun items) : Going more items := by
  obtain ⟨x, hx, _⟩ := h
  rintro _ rfl
  cases hx

/-- A front lexeme that is no newline. -/
theorem Follows.begun {g h : Grammar α} {Q : α → List Lexeme → Prop} {lexeme : Lexeme}
    (hkind : lexeme.kind ≠ .newline) (hg : Follows more Begun g h Q) :
    Follows more (fun items => items.head? = some lexeme) g h Q :=
  hg.weaken (fun _ hitems => .of_head? hitems hkind) (fun _ _ h => h)

variable {P : List Lexeme → Prop} {Q : α → List Lexeme → Prop}

theorem follows_current {k : Option Lexeme → Grammar α} (hnone : P [] → Steady more (k none) Q)
    (hsome : ∀ x y, x.symbol = y.symbol →
      Follows more (fun items => P items ∧ items.head? = some x) (k (some x)) (k (some y)) Q) :
    Follows more P (current >>= k) (current >>= k) Q := by
  intro s t hst hclosed hP
  have hrun : ∀ stream : Lexemes, (current >>= k) stream = k stream.items.head? stream :=
    fun _ => rfl
  rw [hrun, hrun]
  by_cases hs : s.items = []
  · have hnil : Steady more (k none) Q := hnone (hs ▸ hP)
    rw [hs, List.head?_nil]
    by_cases hmore : more = []
    · rw [hst.eq_nil hs hmore, List.head?_nil]
      exact hnil s t hst hclosed trivial
    · exact (hnil s _ (.nil hs s.finish) hclosed trivial).of_nil hs hmore _
  · obtain ⟨x, hx⟩ := Option.ne_none_iff_exists'.mp (mt List.head?_eq_none_iff.mp hs)
    obtain ⟨y, hy, hsymbol⟩ := hst.front hx
    rw [hx, hy]
    exact hsome x y hsymbol s t hst hclosed ⟨hP, hx⟩

theorem steady_current {k : Option Lexeme → Grammar α} (hnone : Steady more (k none) Q)
    (hsome : ∀ x y, x.symbol = y.symbol →
      Follows more (fun items => items.head? = some x) (k (some x)) (k (some y)) Q) :
    Steady more (current >>= k) Q :=
  follows_current (fun _ => hnone)
    (fun x y h => (hsome x y h).weaken (fun _ hitems => hitems.2) (fun _ _ hQ => hQ))

theorem steady_unexpected : Steady more (unexpected : Grammar α) Q := by
  intro s t hst hclosed _
  have hrun : ∀ stream : Lexemes, (unexpected : Grammar α) stream =
      .error ⟨⟨(stream.items.head?.map (fun lexeme =>
          ParseError.Cause.unexpectedToken lexeme.describe)).getD .endOfInput,
        (stream.items.head?.map Lexeme.position).getD stream.finish⟩, false⟩ := by
    rintro ⟨items, finish⟩
    cases items <;> rfl
  rw [hrun, hrun]
  by_cases hs : s.items = []
  · by_cases hmore : more = []
    · exact .error (.inl hmore) (by rw [hs, hst.eq_nil hs hmore])
    · exact .starved hmore (by rw [hs]; rfl)
  · have hdescribe : ∀ {x y : Lexeme}, x.symbol = y.symbol → x.describe = y.describe := by
      intro x y h
      unfold Lexeme.describe
      rw [kind_eq h, text_eq h]
    obtain ⟨x, hx⟩ := Option.ne_none_iff_exists'.mp (mt List.head?_eq_none_iff.mp hs)
    obtain ⟨y, hy, hsymbol⟩ := hst.front hx
    refine .error (.inr hs) ?_
    rw [hx, hy]
    simp only [Option.map_some, Option.getD_some, hdescribe hsymbol]

theorem follows_failHere {cause : ParseError.Cause} :
    Follows more (Going more) (failHere cause : Grammar α) (failHere cause) Q := by
  intro s t hst _ hs
  refine .error ?_ rfl
  by_cases hmore : more = []
  · exact .inl hmore
  · exact .inr (hs hmore)

theorem follows_fail {e f : Failure} (hcause : e.error.cause = f.error.cause) :
    Follows more (Going more) (fun _ => .error e : Grammar α) (fun _ => .error f) Q := by
  intro s t hst _ hs
  refine .error ?_ hcause
  by_cases hmore : more = []
  · exact .inl hmore
  · exact .inr (hs hmore)

theorem advance_run (stream : Lexemes) :
    advance stream = .ok ((), ⟨stream.items.tail, stream.finish⟩) := rfl

theorem steady_advance : Steady more advance (fun _ _ => True) := by
  intro s t hst _ _
  rw [advance_run, advance_run]
  by_cases hs : s.items = []
  · by_cases hmore : more = []
    · have htail : s.items.tail = s.items := by rw [hs]; rfl
      have htail' : t.items.tail = t.items := by rw [hst.eq_nil hs hmore]; rfl
      rw [htail, htail']
      exact .ok (List.nil_append _).symm trivial hst
    · exact .ended hmore (by rw [hs]; rfl) trivial
  · obtain ⟨x, items, hitems⟩ := List.exists_cons_of_ne_nil hs
    have hsplit : s.items = [x] ++ s.items.tail := by rw [hitems]; rfl
    exact .ok hsplit trivial (hst.tail hs _ _)

theorem follows_advance : Follows more Begun advance advance (fun _ used => Solid used) := by
  rintro s t hst _ ⟨x, hx, hkind⟩
  obtain ⟨items, hitems⟩ := List.head?_eq_some_iff.mp hx
  have hs : s.items ≠ [] := by simp [hitems]
  rw [advance_run, advance_run]
  have hsplit : s.items = [x] ++ s.items.tail := by rw [hitems]; rfl
  exact .ok hsplit (.singleton hkind) (hst.tail hs _ _)

/-- After a lexeme that is no newline something is left of closed lexemes. -/
theorem Follows.advance {g h : Grammar α} {R : α → List Lexeme → Prop}
    (hg : Follows more (Going more) g h R)
    (hQ : ∀ a used rest, Solid used → R a rest → Q a (used ++ rest)) :
    Follows more Begun (do advance; g) (do advance; h) Q :=
  follows_advance.bind (fun _ => hg)
    (fun _ _ _ _ hused hclosed hmore => (hclosed hmore).ne_nil hused)
    (fun _ a used rest => hQ a used rest)

/-- A look at the symbol of the front lexeme. -/
theorem steady_look {test : Grammar β} {q : Option Symbol → β} {k : β → Grammar α}
    (hrun : ∀ items finish, test ⟨items, finish⟩ = .ok (q (frontOf items), ⟨items, finish⟩))
    (hnone : Steady more (k (q none)) Q)
    (hsome : ∀ x : Lexeme, Follows more (fun items => items.head? = some x) (k (q (some x.symbol)))
      (k (q (some x.symbol))) Q) : Steady more (test >>= k) Q := by
  have hsame : test >>= k = current >>= fun front => k (q (front.map Lexeme.symbol)) := by
    funext stream
    rw [bind_ok (hrun stream.items stream.finish)]
    rfl
  rw [hsame]
  refine steady_current hnone (fun x y hsymbol => ?_)
  rw [Option.map_some, Option.map_some, ← hsymbol]
  exact hsome x

theorem steady_atOperator {token : Token} {k : Bool → Grammar α}
    (htrue : Follows more Begun (k true) (k true) Q) (hfalse : Steady more (k false) Q) :
    Steady more (atOperator token >>= k) Q := by
  refine steady_look (atOperator_run token) hfalse (fun x => ?_)
  rw [Option.any_some]
  cases hx : x.symbol.kind == .op token with
  | false => exact hfalse.follows
  | true => exact htrue.begun (by simp [show x.kind = .op token from eq_of_beq hx])

theorem Lexeme.kind_of_token? {x : Lexeme} {token : Token} (h : x.token? = some token) :
    x.kind ≠ .newline := by
  intro hkind
  unfold Lexeme.token? at h
  rw [hkind] at h
  cases h

theorem steady_atToken {token : Token} {k : Bool → Grammar α}
    (htrue : Follows more Begun (k true) (k true) Q) (hfalse : Steady more (k false) Q) :
    Steady more (atToken token >>= k) Q := by
  refine steady_look (atToken_run token) hfalse (fun x => ?_)
  rw [Option.any_some]
  cases hx : x.symbol.token? == some token with
  | false => exact hfalse.follows
  | true => exact htrue.begun (Lexeme.kind_of_token? (eq_of_beq hx))

theorem steady_expect (token : Token) : Steady more (expect token) (fun _ => Solid) :=
  steady_atToken follows_advance steady_unexpected

theorem skipNewlines_run (stream : Lexemes) :
    skipNewlines stream = .ok ((), stream.pastNewlines) := rfl

theorem steady_skipNewlines : Steady more skipNewlines (fun _ _ => True) := by
  intro s t hst _ _
  have hsplit := List.takeWhile_append_dropWhile
    (p := fun lexeme : Lexeme => lexeme.kind == .newline) (l := s.items)
  rw [skipNewlines_run, skipNewlines_run]
  by_cases hrest : s.pastNewlines.items = []
  · by_cases hmore : more = []
    · refine .ok hsplit.symm trivial (hst.pastNewlines (.inl hmore))
    · exact .ended hmore hrest trivial
  · exact .ok hsplit.symm trivial (hst.pastNewlines (.inr hrest))

/-- The look at the second lexeme does not reach over the end of closed lexemes. -/
theorem follows_nextIs (token : Token) :
    Follows more Begun (nextIs token) (nextIs token) (fun _ used => used = []) := by
  rintro s t hst hclosed ⟨x, hx, hkind⟩
  obtain ⟨rest, hrest⟩ := List.head?_eq_some_iff.mp hx
  have hs : s.items ≠ [] := by simp [hrest]
  have htail := hst.tail hs s.finish t.finish
  have hsame : t.items.tail.head?.any (fun lexeme => lexeme.token? == some token) =
      s.items.tail.head?.any (fun lexeme => lexeme.token? == some token) := by
    by_cases hnil : s.items.tail = []
    · have hmore : more = [] := by
        by_contra hmore
        have hsplit : s.items = [x] ++ rest := hrest
        rw [hsplit] at hclosed
        exact (hclosed hmore).ne_nil (.singleton hkind) (by simpa [hrest] using hnil)
      have hnil' : t.items.tail = [] := htail.eq_nil hnil hmore
      rw [hnil, hnil']
    · obtain ⟨z, hz⟩ := Option.ne_none_iff_exists'.mp (mt List.head?_eq_none_iff.mp hnil)
      obtain ⟨y, hy, hsymbol⟩ := htail.front hz
      rw [hz, hy, Option.any_some, Option.any_some, token?_eq hsymbol]
  have hrun : ∀ stream : Lexemes, nextIs token stream = .ok
      (stream.items.tail.head?.any (fun lexeme => lexeme.token? == some token), stream) :=
    fun _ => rfl
  rw [hrun, hrun, hsame]
  exact .ok (List.nil_append _).symm rfl hst

theorem steady_skipEmptyEnd : Steady more skipEmptyEnd (fun _ => Firm) := by
  refine steady_atOperator ?_ (.pure .nil)
  refine (follows_nextIs .esacWord).bind (N := fun _ => Begun) (S := fun _ _ => Firm)
    (fun found => ?_) ?_ ?_
  · cases found with
    | true => exact follows_advance.weaken (fun _ h => h) (fun _ _ h => h.2)
    | false => exact .pure .nil
  · rintro found used rest hbegun rfl _
    exact hbegun
  · rintro found _ used rest rfl hrest
    exact hrest

/-! ## Repetitions -/

/-- A step found something in lexemes that satisfy `S`, or nothing in some that satisfy `N`. -/
def Found (S N : List Lexeme → Prop) : Option α → List Lexeme → Prop
  | some _, used => S used
  | none, used => N used

section Repetitions

variable {S N : List Lexeme → Prop}

theorem Found.of_isSome {next : Option α} {used : List Lexeme} (hnext : next.isSome = true)
    (h : S used) : Found S N next used := by
  cases next with
  | none => cases hnext
  | some a => exact h

/-- After a step that found something fewer lexemes are left. -/
theorem Found.shorter (hS : ∀ used, S used → used ≠ []) {next : Option α} {a : α}
    {used rest : List Lexeme} {size : Nat} (h : Found S N next used) (hnext : a ∈ next)
    (hsize : (used ++ rest).length ≤ size) : rest.length < size := by
  cases hnext
  have hlength := List.length_pos_iff.mpr (hS used h)
  rw [List.length_append] at hsize
  omega

theorem follows_collect {step : Grammar (Option α)} (hS : ∀ used, S used → used ≠ [])
    (hSS : ∀ used rest, S rest → S (used ++ rest))
    (hSN : ∀ used rest, S used → N rest → S (used ++ rest)) (hstep : Steady more step (Found S N))
    (size : Nat) {bound bound' : List Lexeme} (hbound : size ≤ bound.length)
    (hbound' : size ≤ bound'.length) (found : List α) :
    Follows more (fun items => items.length ≤ size) (collect step bound found)
      (collect step bound' found)
      (fun results used => ∃ new, results = found.reverse ++ new ∧
        if new = [] then N used else S used) := by
  induction size generalizing bound bound' found with
  | zero =>
      unfold collect
      refine hstep.follows.bind (N := fun next rest => ∀ a ∈ next, rest.length < 0)
        (S := fun next results rest => next = none ∧ results = found.reverse ∧ rest = [])
        (fun next => ?_) (fun next used rest hsize hused _ a ha => hused.shorter hS ha hsize) ?_
      · cases next with
        | none => exact .pure ⟨rfl, rfl, rfl⟩
        | some a => exact fun _ _ _ _ hrest => absurd (hrest a rfl) (Nat.not_lt_zero _)
      · rintro next results used rest hused ⟨rfl, rfl, rfl⟩
        exact ⟨[], (List.append_nil _).symm, (List.append_nil used).symm ▸ hused⟩
  | succ size ih =>
      obtain ⟨lexeme, bound, rfl⟩ := List.exists_cons_of_length_pos (by omega : 0 < bound.length)
      obtain ⟨lexeme', bound', rfl⟩ := List.exists_cons_of_length_pos (by omega : 0 < bound'.length)
      unfold collect
      refine hstep.follows.bind (N := fun next rest => ∀ a ∈ next, rest.length < size + 1)
        (S := fun next results rest => (next = none ∧ results = found.reverse ∧ rest = []) ∨
          ∃ a ∈ next, ∃ new, results = (a :: found).reverse ++ new ∧
            if new = [] then N rest else S rest)
        (fun next => ?_) (fun next used rest hsize hused _ a ha => hused.shorter hS ha hsize) ?_
      · cases next with
        | none => exact .pure (.inl ⟨rfl, rfl, rfl⟩)
        | some a =>
            exact (ih (Nat.le_of_succ_le_succ hbound) (Nat.le_of_succ_le_succ hbound')
              (a :: found)).weaken (fun items hitems => Nat.lt_succ_iff.mp (hitems a rfl))
              (fun results used h => .inr ⟨a, rfl, h⟩)
      · rintro next results used rest hused (⟨rfl, rfl, rfl⟩ | ⟨a, rfl, new, rfl, hrest⟩)
        · exact ⟨[], (List.append_nil _).symm, (List.append_nil used).symm ▸ hused⟩
        · refine ⟨a :: new, by simp, ?_⟩
          rw [if_neg (by simp)]
          split at hrest
          · exact hSN used rest hused hrest
          · exact hSS used rest hrest

/-- The lexemes left bound a repetition, which uses up one for each thing it finds. -/
theorem steady_many {step : Grammar (Option α)} (hS : ∀ used, S used → used ≠ [])
    (hSS : ∀ used rest, S rest → S (used ++ rest))
    (hSN : ∀ used rest, S used → N rest → S (used ++ rest))
    (hstep : Steady more step (Found S N)) :
    Steady more (many step) (fun results used => if results = [] then N used else S used) := by
  intro s t hst hclosed _
  have hbound : s.items.length ≤ t.items.length := by
    rw [hst.length_eq]
    omega
  have hcollect := follows_collect hS hSS hSN hstep s.items.length (Nat.le_refl _) hbound []
    s t hst hclosed (Nat.le_refl _)
  refine hcollect.prepend (List.nil_append _).symm ?_
  rintro results used ⟨new, rfl, h⟩
  exact h

/-- A repetition of steps that use up lexemes when they find something. -/
theorem steady_many_any {step : Grammar (Option α)}
    (hstep : Steady more step (Found (· ≠ []) (fun _ => True))) :
    Steady more (many step) (fun _ _ => True) :=
  (steady_many (fun _ h => h) (fun _ _ h => by simp [h]) (fun _ _ h _ => by simp [h]) hstep).weaken
    (fun _ _ _ => trivial)

theorem follows_extend {step : α → Grammar (Option α)}
    (hstep : ∀ a, Steady more (step a) (Found Solid Firm)) (size : Nat)
    {bound bound' : List Lexeme} (hbound : size ≤ bound.length) (hbound' : size ≤ bound'.length)
    (a : α) :
    Follows more (fun items => items.length ≤ size) (extend step bound a) (extend step bound' a)
      (fun _ => Firm) := by
  have hused : ∀ (next : Option α) (b : α) used rest, Found Solid Firm next used → Firm rest →
      Firm (used ++ rest) := by
    rintro (_ | _) b used rest hused hrest
    · exact Firm.append hused hrest
    · exact Firm.append hused.2 hrest
  induction size generalizing bound bound' a with
  | zero =>
      unfold extend
      refine (hstep a).follows.bind (N := fun next rest => ∀ b ∈ next, rest.length < 0)
        (fun next => ?_)
        (fun next used rest hsize hused _ b hb => hused.shorter (fun _ h => h.1) hb hsize) hused
      cases next with
      | none => exact .pure .nil
      | some b => exact fun _ _ _ _ hrest => absurd (hrest b rfl) (Nat.not_lt_zero _)
  | succ size ih =>
      obtain ⟨lexeme, bound, rfl⟩ := List.exists_cons_of_length_pos (by omega : 0 < bound.length)
      obtain ⟨lexeme', bound', rfl⟩ := List.exists_cons_of_length_pos (by omega : 0 < bound'.length)
      unfold extend
      refine (hstep a).follows.bind (N := fun next rest => ∀ b ∈ next, rest.length < size + 1)
        (fun next => ?_)
        (fun next used rest hsize hused _ b hb => hused.shorter (fun _ h => h.1) hb hsize) hused
      cases next with
      | none => exact .pure .nil
      | some b =>
          exact (ih (Nat.le_of_succ_le_succ hbound) (Nat.le_of_succ_le_succ hbound') b).weaken
            (fun items hitems => Nat.lt_succ_iff.mp (hitems b rfl)) (fun _ _ h => h)

/-- Extensions do not end with a newline. -/
theorem steady_extend {step : α → Grammar (Option α)}
    (hstep : ∀ a, Steady more (step a) (Found Solid Firm)) (a : α) :
    Steady more (do extend step (← remaining) a) (fun _ => Firm) := by
  intro s t hst hclosed _
  have hbound : s.items.length ≤ t.items.length := by
    rw [hst.length_eq]
    omega
  exact follows_extend hstep s.items.length (Nat.le_refl _) hbound a s t hst hclosed
    (Nat.le_refl _)

end Repetitions

end Grammar

end Conch.Syntax
