import Mathlib.Data.List.Basic

/-! Path texts over any alphabet with a separator and a dot: how a text parses into
components, and what pushing names onto a text does to its components. -/
namespace PathText

/-- One component of a path. -/
inductive Part (α : Type*) where
  | rootDir
  | curDir
  | parentDir
  | normal (name : List α)
  deriving DecidableEq

section Parsing

variable {α : Type*} [DecidableEq α] (sep dot : α)

/-- What one separated piece contributes; a dot counts only in front of a relative path. -/
def piecePart (leading : Bool) (piece : List α) : Option (Part α) :=
  if piece = [] then none
  else if piece = [dot] then if leading then some .curDir else none
  else if piece = [dot, dot] then some .parentDir
  else some (.normal piece)

/-- The components of the pieces behind the first. -/
def inner (pieces : List (List α)) : List (Part α) := pieces.filterMap (piecePart dot false)

/-- The components of a path that is not absolute. -/
def relativeParts : List (List α) → List (Part α)
  | [] => []
  | piece :: pieces => (piecePart dot true piece).toList ++ inner dot pieces

def parts (text : List α) : List (Part α) :=
  if text.head? = some sep then .rootDir :: inner dot (text.splitOn sep)
  else relativeParts dot (text.splitOn sep)

/-- Pushes a path: an absolute one replaces the text, any other goes behind a separator. -/
def push (text path : List α) : List α :=
  if path.head? = some sep then path
  else if text ≠ [] ∧ text.getLast? ≠ some sep then text ++ sep :: path
  else text ++ path

def extend (text : List α) (names : List (List α)) : List α := names.foldl (push sep) text

/-- A name that is one normal component. -/
def Plain (name : List α) : Prop :=
  name ≠ [] ∧ sep ∉ name ∧ name ≠ [dot] ∧ name ≠ [dot, dot]

end Parsing

section Pushing

variable {α : Type*} [DecidableEq α] {sep dot : α} {text name : List α}

theorem piecePart_plain (h : Plain sep dot name) (leading : Bool) :
    piecePart dot leading name = some (.normal name) := by
  obtain ⟨hne, -, hdot, hdots⟩ := h
  rw [piecePart, if_neg hne, if_neg hdot, if_neg hdots]

theorem inner_append (a b : List (List α)) : inner dot (a ++ b) = inner dot a ++ inner dot b :=
  List.filterMap_append

theorem inner_plain (h : Plain sep dot name) : inner dot [name] = [.normal name] := by
  rw [inner, List.filterMap_cons, piecePart_plain h]
  rfl

theorem relativeParts_append {a : List (List α)} (ha : a ≠ []) (b : List (List α)) :
    relativeParts dot (a ++ b) = relativeParts dot a ++ inner dot b := by
  obtain ⟨piece, pieces, rfl⟩ := List.exists_cons_of_ne_nil ha
  rw [List.cons_append, relativeParts, relativeParts, inner_append, List.append_assoc]

/-- A separator ends the component before it. -/
theorem parts_append_sep (hne : text ≠ []) (rest : List α) :
    parts sep dot (text ++ sep :: rest) = parts sep dot text ++ inner dot (rest.splitOn sep) := by
  have hhead : (text ++ sep :: rest).head? = text.head? := by
    obtain ⟨c, tail, rfl⟩ := List.exists_cons_of_ne_nil hne
    rfl
  rw [parts, parts, hhead, List.splitOn_append_cons_self]
  split
  · rw [inner_append, List.cons_append]
  · exact relativeParts_append (List.splitOn_ne_nil sep text) _

/-- An absolute path. -/
theorem parts_sep_cons (rest : List α) :
    parts sep dot (sep :: rest) = .rootDir :: inner dot (rest.splitOn sep) := by
  have hsplit : (sep :: rest).splitOn sep = [] :: rest.splitOn sep := by
    rw [List.splitOn_cons_eq_if_modifyHead, if_pos (beq_self_eq_true sep)]
  rw [parts, List.head?_cons, if_pos rfl, hsplit, inner, List.filterMap_cons]
  rfl

/-- A trailing separator adds no component. -/
theorem parts_concat_sep (hne : text ≠ []) :
    parts sep dot (text ++ [sep]) = parts sep dot text := by
  rw [parts_append_sep hne, List.splitOn_nil]
  simp [inner, piecePart]

omit [DecidableEq α] in
theorem head?_plain (h : Plain sep dot name) : name.head? ≠ some sep := by
  intro hhead
  exact h.2.1 (List.mem_of_mem_head? hhead)

/-- Pushing a plain name adds exactly that component. -/
theorem parts_push (h : Plain sep dot name) (text : List α) :
    parts sep dot (push sep text name) = parts sep dot text ++ [.normal name] := by
  have hsplit : name.splitOn sep = [name] := List.splitOn_eq_singleton h.2.1
  have hempty : parts sep dot [] = ([] : List (Part α)) := by
    simp [parts, relativeParts, inner, piecePart]
  have halone : parts sep dot name = [.normal name] := by
    rw [parts, if_neg (head?_plain h), hsplit, relativeParts, piecePart_plain h]
    rfl
  rw [push, if_neg (head?_plain h)]
  split
  · rename_i hsep
    rw [parts_append_sep hsep.1, hsplit, inner_plain h]
  · rename_i hsep
    -- the text is empty, or it ends with a separator already
    by_cases hne : text = []
    · rw [hne, List.nil_append, halone, hempty, List.nil_append]
    · have hlast : text.getLast? = some sep := by
        by_contra hlast
        exact hsep ⟨hne, hlast⟩
      obtain ⟨front, rfl⟩ := List.getLast?_eq_some_iff.mp hlast
      rw [List.append_assoc, List.singleton_append]
      by_cases hfront : front = []
      · rw [hfront, List.nil_append, List.nil_append, parts_sep_cons, parts_sep_cons, hsplit,
          inner_plain h, List.splitOn_nil]
        simp [inner, piecePart]
      · rw [parts_append_sep hfront, hsplit, inner_plain h, parts_concat_sep hfront]

/-- Pushing plain names one after the other adds exactly these components. -/
theorem parts_extend {names : List (List α)} (h : ∀ name ∈ names, Plain sep dot name)
    (text : List α) :
    parts sep dot (extend sep text names) = parts sep dot text ++ names.map Part.normal := by
  induction names generalizing text with
  | nil => rw [extend, List.foldl_nil, List.map_nil, List.append_nil]
  | cons name names ih =>
    have htail := ih (fun n hn => h n (List.mem_cons_of_mem _ hn)) (push sep text name)
    rw [extend] at htail
    rw [extend, List.foldl_cons, htail, parts_push (h name List.mem_cons_self), List.map_cons,
      List.append_assoc, List.singleton_append]

end Pushing

end PathText
