import Conch.Syntax.ParseError

/-!
# Balanced delimiters

The text between an opening delimiter and the closing one that matches it.  Quoted
delimiters and the character after a backslash do not count.  The division loses
nothing (`Delimited.split_eq_ok`).
-/

namespace Conch.Syntax.Delimited

inductive Quoting where
  | none | single | double
  deriving DecidableEq, Repr

inductive Step where
  | one (quoting : Quoting) (depth : Nat)
  /-- A backslash and the character it protects. -/
  | two
  | close
  deriving DecidableEq, Repr

def step (opening closing : Char) (quoting : Quoting) (depth : Nat) (c : Char) : Step :=
  match quoting with
  | .single => .one (if c = '\'' then .none else .single) depth
  | .double =>
      if c = '\\' then .two
      else .one (if c = '"' then .none else .double) depth
  | .none =>
      if c = '\\' then .two
      else if c = '\'' then .one .single depth
      else if c = '"' then .one .double depth
      else if c = opening then .one .none (depth + 1)
      else if c = closing then
        match depth with
        | 0 => .close
        | n + 1 => .one .none n
      else .one .none depth

/-- What is missing when the text ends first. -/
def missing (closing : Char) : Quoting → ParseError.Cause
  | .single => .openQuote .singleQuote
  | _ => .missingClose closing

def scan (opening closing : Char) :
    Quoting → Nat → List Char → List Char → Except ParseError.Cause (List Char × List Char)
  | quoting, _, _, [] => .error (missing closing quoting)
  | quoting, depth, seen, c :: rest =>
      match step opening closing quoting depth c with
      | .one quoting depth => scan opening closing quoting depth (c :: seen) rest
      | .two =>
          match rest with
          | [] => .error (.missingClose closing)
          | d :: rest => scan opening closing quoting depth (d :: c :: seen) rest
      | .close => .ok (seen.reverse, rest)

/-- Divides the text after an opening delimiter at the delimiter that closes it. -/
def split (opening closing : Char) (text : List Char) :
    Except ParseError.Cause (List Char × List Char) :=
  scan opening closing .none 0 [] text

theorem step_close {opening closing : Char} {quoting : Quoting} {depth : Nat} {c : Char}
    (h : step opening closing quoting depth c = .close) : c = closing := by
  unfold step at h
  split at h
  · simp at h
  · split at h <;> simp at h
  · repeat' (split at h)
    all_goals simp_all

theorem scan_eq_ok {opening closing : Char} {quoting : Quoting} {depth : Nat}
    {seen text body rest : List Char}
    (h : scan opening closing quoting depth seen text = .ok (body, rest)) :
    seen.reverse ++ text = body ++ closing :: rest := by
  fun_induction scan opening closing quoting depth seen text with
  | case1 => simp at h
  | case2 _ _ _ _ _ _ _ _ ih => simpa using ih h
  | case3 => simp at h
  | case4 _ _ _ _ _ _ _ ih => simpa using ih h
  | case5 _ _ seen c _ hs =>
      simp only [Except.ok.injEq, Prod.mk.injEq] at h
      simp [← h.1, ← h.2, step_close hs]

theorem split_eq_ok {opening closing : Char} {text body rest : List Char}
    (h : split opening closing text = .ok (body, rest)) : text = body ++ closing :: rest := by
  simpa using scan_eq_ok h

theorem split_length_lt {opening closing : Char} {text body rest : List Char}
    (h : split opening closing text = .ok (body, rest)) : rest.length < text.length := by
  have := congrArg List.length (split_eq_ok h)
  simp at this
  omega

end Conch.Syntax.Delimited
