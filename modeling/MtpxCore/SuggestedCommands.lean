import MtpxCore.DevicePaths
import MtpxCore.ShellWords

/-! The commands that error messages suggest (`ui/diagnostic.rs`): what the shell makes of them
when they are pasted back. -/
namespace MtpxCore

/-- `str::replace` of one character. -/
def strReplace (s : String) (c : Char) (replacement : String) : String :=
  String.ofList (s.toList.flatMap fun d => if d = c then replacement.toList else [d])

def isSafe (c : Char) : Bool := c.isAlphanum || "_/.:,+=@%-".toList.contains c

/-- Quotes an argument so a POSIX shell passes it through verbatim. -/
def shellArgument (argument : String) : String :=
  if argument ≠ "" ∧ argument.toList.all isSafe = true then argument
  else "'" ++ strReplace argument '\'' "'\\''" ++ "'"

def lsParentCommand (path : DevicePath) : String :=
  "mtpx ls " ++ shellArgument
    (DevicePath.mk path.storage (path.path.parent.getD RemotePath.root)).display

open ShellWords in
/-- Nothing the fast path lets through is special to the shell behind the first word. -/
theorem ordinary_of_isSafe {c : Char} (h : isSafe c = true) : Reader.Ordinary c := by
  unfold Reader.Ordinary symbol
  split
  all_goals first
    | exact .inl rfl
    | exact .inr rfl
    | exact absurd h (by decide)

section Quoting

open ShellWords

variable {words : List String}

/-- The text between the quotes of an argument is read as the argument. -/
theorem run_replaced {cs : List Char} (hnul : '\x00' ∉ cs) (word : List Char) :
    Reader.run ⟨.single, words, word⟩
      (cs.flatMap fun d => if d = '\'' then "'\\''".toList else [d]) =
        .ok ⟨.single, words, word ++ cs⟩ := by
  induction cs generalizing word with
  | nil => rw [List.flatMap_nil, Reader.run, List.append_nil]
  | cons c cs ih =>
    have hc : c ≠ '\x00' := fun he => hnul (he ▸ List.mem_cons_self)
    have hrest : '\x00' ∉ cs := fun hm => hnul (List.mem_cons_of_mem c hm)
    have hhead : Reader.run ⟨.single, words, word⟩ (if c = '\'' then "'\\''".toList else [c]) =
        .ok ⟨.single, words, word ++ [c]⟩ := by
      by_cases hquote : c = '\''
      · rw [if_pos hquote, hquote]
        exact Reader.run_splice words word
      · rw [if_neg hquote, Reader.run_cons (Reader.step_single hc hquote), Reader.run]
    rw [List.flatMap_cons, Reader.run_append hhead, ih hrest, List.append_assoc]
    rfl

/-- Behind the first word an argument is read as one word, and ends as one. -/
theorem run_shellArgument (hwords : words ≠ []) {s : String} (hnul : '\x00' ∉ s.toList) :
    Reader.run ⟨.between, words, []⟩ (shellArgument s).toList = .ok ⟨.word, words, s.toList⟩ := by
  rw [shellArgument]
  split
  · rename_i h
    obtain ⟨c, cs, hs⟩ := List.exists_cons_of_ne_nil (fun hnil => h.1 (String.toList_eq_nil_iff.mp hnil))
    have hordinary : ∀ x ∈ c :: cs, Reader.Ordinary x := fun x hx =>
      ordinary_of_isSafe (List.all_eq_true.mp h.2 x (hs ▸ hx))
    have hfirst : Reader.step ⟨.between, words, []⟩ c = .ok ⟨.word, words, [c]⟩ :=
      Reader.step_ordinary (hordinary c List.mem_cons_self) hwords (.inl rfl)
    rw [hs, Reader.run_cons hfirst,
      Reader.run_ordinary hwords (fun x hx => hordinary x (List.mem_cons_of_mem c hx))]
    rfl
  · have hopen : Reader.run ⟨.between, words, []⟩ "'".toList = .ok ⟨.single, words, []⟩ := rfl
    have hclose : Reader.run ⟨.single, words, s.toList⟩ "'".toList =
        .ok ⟨.word, words, s.toList⟩ := rfl
    have htext : (strReplace s '\'' "'\\''").toList =
        s.toList.flatMap fun d => if d = '\'' then "'\\''".toList else [d] := by
      rw [strReplace, String.toList_ofList]
    rw [String.toList_append, String.toList_append, htext, List.append_assoc,
      Reader.run_append hopen, Reader.run_append (run_replaced hnul []), List.nil_append, hclose]

/-- Behind the words of any command an argument is one more word. -/
theorem words_of_argument {command s : String}
    (hcommand : Reader.run Reader.start command.toList = .ok ⟨.between, words, []⟩)
    (hwords : words ≠ []) (hnul : '\x00' ∉ s.toList) :
    ShellWords.split (command ++ shellArgument s) = .ok (words ++ [s]) := by
  rw [ShellWords.split, String.toList_append, Reader.run_append hcommand,
    run_shellArgument hwords hnul]
  change Except.ok (words ++ [String.ofList s.toList]) = _
  rw [String.ofList_toList]

/-- A suggested command is three words, the last one the argument, and nothing else happens. -/
theorem suggested_words (s : String) (hnul : '\x00' ∉ s.toList) :
    ShellWords.split ("mtpx ls " ++ shellArgument s) = .ok ["mtpx", "ls", s] := by
  have hcommand : Reader.run Reader.start "mtpx ls ".toList = .ok ⟨.between, ["mtpx", "ls"], []⟩ := by
    decide
  exact words_of_argument hcommand (by simp) hnul

end Quoting

/-- A line break, a comment sign, a substitution and a quote, all part of one name. -/
theorem suggested_words_hostile :
    shellArgument "/It's; rm -rf $HOME\n" = "'/It'\\''s; rm -rf $HOME\n'" ∧
      ShellWords.split ("mtpx ls " ++ shellArgument "/It's; rm -rf $HOME\n") =
        .ok ["mtpx", "ls", "/It's; rm -rf $HOME\n"] :=
  ⟨by decide, suggested_words _ (by decide)⟩

theorem RemotePath.display_no_nul (path : RemotePath) : '\x00' ∉ path.display.toList := by
  rw [RemotePath.display]
  split
  · decide
  · intro hmem
    rw [String.toList_join] at hmem
    obtain ⟨piece, hpiece, hmem⟩ := List.mem_flatMap.mp hmem
    obtain ⟨segment, hsegment, rfl⟩ := List.mem_map.mp hpiece
    have hvalid := validateSegment_iff.mp (path.rel.valid segment hsegment)
    rw [String.toList_append] at hmem
    rcases List.mem_append.mp hmem with hmem | hmem
    · exact absurd hmem (by decide)
    · exact hvalid.2.2.2.1 hmem

/-- Pasted back, the suggested command lists the parent of the path it is about. -/
theorem lsParentCommand_lists (path : DevicePath) (hstorage : path.storage.Shown)
    (hnul : '\x00' ∉ path.storage.display.toList) : ∃ parent : DevicePath,
      ShellWords.split (lsParentCommand path) = .ok ["mtpx", "ls", parent.display] ∧
        DevicePath.fromStr parent.display = .ok parent ∧ parent.storage = path.storage ∧
          parent.path = path.path.parent.getD RemotePath.root := by
  refine ⟨⟨path.storage, path.path.parent.getD RemotePath.root⟩, ?_, ?_, rfl, rfl⟩
  · have hcommand : ShellWords.Reader.run ShellWords.Reader.start "mtpx ls ".toList =
        .ok ⟨.between, ["mtpx", "ls"], []⟩ := by
      decide
    apply words_of_argument hcommand (by simp)
    intro hmem
    rw [DevicePath.display, String.toList_append] at hmem
    rcases List.mem_append.mp hmem with hmem | hmem
    · exact hnul hmem
    · exact RemotePath.display_no_nul _ hmem
  · exact DevicePath.fromStr_display hstorage

end MtpxCore
