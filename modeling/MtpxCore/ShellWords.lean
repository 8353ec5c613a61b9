import Mathlib.Data.List.Basic
import Mathlib.Data.String.Basic

/-! How a POSIX shell takes one line apart: it splits the line into words and removes the
quotes. Everything else that it would do to the line counts as an effect, and a line with an
effect has no words here. Reserved words and aliases only concern the first word and are left
out; blanks are those of the POSIX locale. -/
namespace ShellWords

/-- What a shell does to a line apart from splitting it. -/
inductive Effect where
  | expansion
  | pathname
  | tilde
  | redirection
  | comment
  | separator
  | assignment
  | nul
  | unfinished
  deriving DecidableEq, Repr

/-- What an unquoted character is to the shell. -/
inductive Symbol where
  | blank
  | separator
  | redirection
  | expansion
  | pathname
  | single
  | double
  | escape
  | hash
  | tilde
  | equals
  | nul
  | plain
  deriving DecidableEq, Repr

def symbol : Char → Symbol
  | ' ' => .blank
  | '\t' => .blank
  | '\n' => .separator
  | ';' => .separator
  | '&' => .separator
  | '|' => .separator
  | '(' => .separator
  | ')' => .separator
  | '<' => .redirection
  | '>' => .redirection
  | '$' => .expansion
  | '\x60' => .expansion
  | '*' => .pathname
  | '?' => .pathname
  | '[' => .pathname
  | '\'' => .single
  | '"' => .double
  | '\\' => .escape
  | '#' => .hash
  | '~' => .tilde
  | '=' => .equals
  | '\x00' => .nul
  | _ => .plain

/-- Where the reader stands; an escape remembers whether a word has begun. -/
inductive Mode where
  | between
  | word
  | escaped (inWord : Bool)
  | single
  | double
  | doubleEscaped
  deriving DecidableEq, Repr

/-- The words read so far, and what the current one holds. -/
structure Reader where
  mode : Mode
  words : List String
  word : List Char
  deriving DecidableEq, Repr

namespace Reader

def start : Reader := ⟨.between, [], []⟩

def add (r : Reader) (c : Char) : Reader := ⟨.word, r.words, r.word ++ [c]⟩

/-- A character outside quotes. -/
def unquoted (r : Reader) (inWord : Bool) (c : Char) : Except Effect Reader :=
  match symbol c with
  | .blank => .ok (if inWord then ⟨.between, r.words ++ [String.ofList r.word], []⟩ else r)
  | .separator => .error .separator
  | .redirection => .error .redirection
  | .expansion => .error .expansion
  | .pathname => .error .pathname
  | .single => .ok { r with mode := .single }
  | .double => .ok { r with mode := .double }
  | .escape => .ok { r with mode := .escaped inWord }
  -- a hash and a tilde are special at the start of a word, an equals sign in the first word
  | .hash => if inWord then .ok (r.add c) else .error .comment
  | .tilde => if inWord then .ok (r.add c) else .error .tilde
  | .equals => if r.words = [] ∧ inWord then .error .assignment else .ok (r.add c)
  | .nul => .error .nul
  | .plain => .ok (r.add c)

def step (r : Reader) (c : Char) : Except Effect Reader :=
  match r.mode with
  | .between => r.unquoted false c
  | .word => r.unquoted true c
  | .escaped inWord =>
    if c = '\x00' then .error .nul
    -- an escaped newline is taken out of the line
    else if c = '\n' then .ok { r with mode := if inWord then .word else .between }
    else .ok (r.add c)
  | .single =>
    if c = '\x00' then .error .nul
    else if c = '\'' then .ok { r with mode := .word }
    else .ok { r with word := r.word ++ [c] }
  | .double =>
    match symbol c with
    | .nul => .error .nul
    | .double => .ok { r with mode := .word }
    | .escape => .ok { r with mode := .doubleEscaped }
    | .expansion => .error .expansion
    | _ => .ok { r with word := r.word ++ [c] }
  | .doubleEscaped =>
    if c = '\x00' then .error .nul
    else if c = '\n' then .ok { r with mode := .double }
    else if c = '$' ∨ c = '\x60' ∨ c = '"' ∨ c = '\\' then
      .ok { r with mode := .double, word := r.word ++ [c] }
    else .ok { r with mode := .double, word := r.word ++ ['\\', c] }

def finish (r : Reader) : Except Effect (List String) :=
  match r.mode with
  | .between => .ok r.words
  | .word => .ok (r.words ++ [String.ofList r.word])
  | _ => .error .unfinished

def run : Reader → List Char → Except Effect Reader
  | r, [] => .ok r
  | r, c :: cs =>
    match r.step c with
    | .error e => .error e
    | .ok next => next.run cs

end Reader

/-- The words of a line on which splitting and unquoting are all that happens. -/
def split (line : String) : Except Effect (List String) :=
  match Reader.start.run line.toList with
  | .error e => .error e
  | .ok r => r.finish

namespace Reader

theorem run_cons {r next : Reader} {c : Char} (h : r.step c = .ok next) (cs : List Char) :
    r.run (c :: cs) = next.run cs := by
  rw [run, h]

theorem run_append {r middle : Reader} {xs : List Char} (h : r.run xs = .ok middle)
    (ys : List Char) : r.run (xs ++ ys) = middle.run ys := by
  induction xs generalizing r with
  | nil =>
    cases h
    rfl
  | cons c xs ih =>
    rw [run] at h
    rw [List.cons_append, run]
    split at h
    · exact absurd h (by simp)
    · exact ih h

/-- Between single quotes every character stands for itself. -/
theorem step_single {words : List String} {word : List Char} {c : Char} (hnul : c ≠ '\x00')
    (hquote : c ≠ '\'') :
    step ⟨.single, words, word⟩ c = .ok ⟨.single, words, word ++ [c]⟩ := by
  rw [step]
  exact (if_neg hnul).trans (if_neg hquote)

/-- Leaving the quotes, an escaped quote, and entering them again puts a quote in the word. -/
theorem run_splice (words : List String) (word : List Char) :
    run ⟨.single, words, word⟩ ['\'', '\\', '\'', '\''] = .ok ⟨.single, words, word ++ ['\'']⟩ :=
  rfl

/-- A character that is special nowhere but in the first word. -/
def Ordinary (c : Char) : Prop := symbol c = .plain ∨ symbol c = .equals

theorem step_ordinary {r : Reader} {c : Char} (h : Ordinary c) (hwords : r.words ≠ [])
    (hmode : r.mode = .between ∨ r.mode = .word) : r.step c = .ok (r.add c) := by
  have hunquoted (inWord : Bool) : r.unquoted inWord c = .ok (r.add c) := by
    rcases h with h | h
    · rw [unquoted, h]
    · rw [unquoted, h]
      exact if_neg (fun hc => hwords hc.1)
  rcases hmode with hmode | hmode
  · rw [step, hmode]
    exact hunquoted false
  · rw [step, hmode]
    exact hunquoted true

/-- Behind the first word a run of ordinary characters is read as it stands. -/
theorem run_ordinary {words : List String} (hwords : words ≠ []) {cs : List Char}
    (h : ∀ c ∈ cs, Ordinary c) (word : List Char) :
    run ⟨.word, words, word⟩ cs = .ok ⟨.word, words, word ++ cs⟩ := by
  induction cs generalizing word with
  | nil => rw [List.append_nil, run]
  | cons c cs ih =>
    have hstep := step_ordinary (r := ⟨.word, words, word⟩) (h c List.mem_cons_self) hwords (.inr rfl)
    rw [run_cons hstep, add, ih (fun x hx => h x (List.mem_cons_of_mem c hx)), List.append_assoc]
    rfl

end Reader

/-- A blank, a quoted blank and an escaped one. -/
example : split "a 'b c' d\\ e" = .ok ["a", "b c", "d e"] := by decide

example : split "a $(b)" = .error .expansion := by decide

end ShellWords
