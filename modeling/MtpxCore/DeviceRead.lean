import MtpxCore.PartialRecords
import Mathlib.Logic.Relation

/-! Reading a file from the device (`mtp/mod.rs`): a pump task forwards windows into a bounded
channel, a second task reports a pump that panicked, and both hold a sender. A step is one move
of one of them, of the device, of the reader, or the cancel. -/
namespace MtpxCore

def PUMP_DEPTH : ℕ := 4

/-- What the reader receives; `pumpFailed` is the I/O error around a panic. -/
inductive StreamItem where
  | window (bytes : Bytes)
  | failed (e : Error)
  | pumpFailed
  deriving DecidableEq, Repr

def StreamItem.isErr : StreamItem → Bool
  | .window _ => false
  | _ => true

/-- Where the loop of `pump` is. -/
inductive PumpState where
  | checking
  | fetching
  | sending (item : StreamItem)
  | returned
  | panicked
  deriving DecidableEq, Repr

/-- The loop of the pump is in a call that may panic. -/
def PumpState.running : PumpState → Bool
  | .checking => true
  | .fetching => true
  | .sending _ => true
  | _ => false

/-- Where `report_pump_failure` is; `gone` once its sender is dropped. -/
inductive ReportState where
  | waiting
  | reporting
  | gone
  deriving DecidableEq, Repr

/-- A read in progress; `position` is the offset of the download. -/
structure ReadState where
  position : ℕ
  cancelled : Bool
  pump : PumpState
  report : ReportState
  channel : List StreamItem
  received : List StreamItem
  deriving DecidableEq, Repr

namespace ReadState

def start (offset : ℕ) : ReadState := ⟨offset, false, .checking, .waiting, [], []⟩

/-- No sender is left and nothing is buffered: the reader sees the end of the stream. -/
def Ended (s : ReadState) : Prop :=
  (s.pump = .returned ∨ s.pump = .panicked) ∧ s.report = .gone ∧ s.channel = []

end ReadState

/-- One step of a read of `file`. -/
inductive ReadStep (file : Bytes) : ReadState → ReadState → Prop
  | cancel (s : ReadState) (hlive : s.cancelled = false) :
      ReadStep file s { s with cancelled := true }
  | checkCancelled (s : ReadState) (hpump : s.pump = .checking) (hcancelled : s.cancelled = true)
      (hmore : s.position < file.length) :
      ReadStep file s { s with pump := .sending (.failed .cancelled) }
  | checkPassed (s : ReadState) (hpump : s.pump = .checking)
      (hlive : ¬(s.cancelled = true ∧ s.position < file.length)) :
      ReadStep file s { s with pump := .fetching }
  -- the device answers with the next bytes, perhaps fewer than a whole window, or with an error
  | window (s : ReadState) (n : ℕ) (hpump : s.pump = .fetching)
      (hmore : s.position < file.length) (hn : s.position + n ≤ file.length) :
      ReadStep file s { s with
        position := s.position + n
        pump := .sending (.window ((file.drop s.position).take n)) }
  | windowError (s : ReadState) (e : MtpError) (hpump : s.pump = .fetching)
      (hmore : s.position < file.length) :
      ReadStep file s { s with pump := .sending (.failed (.ofMtp e)) }
  | windowEnd (s : ReadState) (hpump : s.pump = .fetching)
      (hend : s.position = file.length) : ReadStep file s { s with pump := .returned }
  | send (s : ReadState) (item : StreamItem) (hpump : s.pump = .sending item)
      (hroom : s.channel.length < PUMP_DEPTH) :
      ReadStep file s { s with
        channel := s.channel ++ [item]
        pump := if item.isErr then .returned else .checking }
  | panic (s : ReadState) (hpump : s.pump.running = true) :
      ReadStep file s { s with pump := .panicked }
  | noticePanic (s : ReadState) (hpump : s.pump = .panicked) (hreport : s.report = .waiting) :
      ReadStep file s { s with report := .reporting }
  | noticeReturn (s : ReadState) (hpump : s.pump = .returned) (hreport : s.report = .waiting) :
      ReadStep file s { s with report := .gone }
  | report (s : ReadState) (hreport : s.report = .reporting)
      (hroom : s.channel.length < PUMP_DEPTH) :
      ReadStep file s { s with channel := s.channel ++ [.pumpFailed], report := .gone }
  | receive (s : ReadState) (item : StreamItem) (rest : List StreamItem)
      (hchannel : s.channel = item :: rest) :
      ReadStep file s { s with channel := rest, received := s.received ++ [item] }

abbrev ReadRun (file : Bytes) : ReadState → ReadState → Prop :=
  Relation.ReflTransGen (ReadStep file)

/-- What the two tasks have come to: `tail` is the error that is sent or about to be sent, and
`k` where the delivered bytes end. -/
inductive ReadPhase (size : ℕ) (s : ReadState) : List StreamItem → ℕ → Prop
  | live (hpump : s.pump = .checking ∨ s.pump = .fetching ∨ ∃ b, s.pump = .sending (.window b))
      (hreport : s.report = .waiting) : ReadPhase size s [] s.position
  | failing (e : Error) (hpump : s.pump = .sending (.failed e)) (hreport : s.report = .waiting)
      (hmore : s.position < size) : ReadPhase size s [.failed e] s.position
  | failed (e : Error) (hpump : s.pump = .returned) (hreport : s.report ≠ .reporting)
      (hmore : s.position < size) : ReadPhase size s [.failed e] s.position
  | whole (hpump : s.pump = .returned) (hreport : s.report ≠ .reporting)
      (hend : s.position = size) : ReadPhase size s [] s.position
  | broken (k : ℕ) (hpump : s.pump = .panicked) (hreport : s.report ≠ .gone)
      (hk : k ≤ s.position) : ReadPhase size s [] k
  | told (k : ℕ) (hpump : s.pump = .panicked) (hreport : s.report = .gone)
      (hk : k ≤ s.position) : ReadPhase size s [.pumpFailed] k

/-- The item the pump holds while it waits for room. -/
def PumpState.held : PumpState → List StreamItem
  | .sending item => [item]
  | _ => []

@[simp] theorem panicked_held : PumpState.panicked.held = [] := rfl

/-- Everything produced so far, in order: windows of the file from `offset` on, then the error
of the phase. -/
def ReadInv (file : Bytes) (offset : ℕ) (s : ReadState) : Prop :=
  ∃ (windows : List Bytes) (tail : List StreamItem) (k : ℕ), offset ≤ k ∧ s.position ≤ file.length ∧
    s.received ++ s.channel ++ s.pump.held = windows.map .window ++ tail ∧
    windows.flatten = (file.drop offset).take (k - offset) ∧ ReadPhase file.length s tail k

section Runs

variable {file : Bytes} {offset : ℕ} {s s' : ReadState}

theorem ReadInv.start (h : offset ≤ file.length) : ReadInv file offset (ReadState.start offset) :=
  ⟨[], [], offset, le_refl offset, h, rfl, by simp, .live (Or.inl rfl) rfl⟩

/-- The next bytes of the file go behind those delivered. -/
theorem take_window {k n : ℕ} (hk : offset ≤ k) :
    (file.drop offset).take (k - offset) ++ (file.drop k).take n =
      (file.drop offset).take (k + n - offset) := by
  have hsplit : k + n - offset = (k - offset) + n := by omega
  have hdrop : (file.drop offset).drop (k - offset) = file.drop k := by
    rw [List.drop_drop, Nat.add_sub_cancel' hk]
  rw [hsplit, List.take_add, hdrop]

/-- The first of some windows hold the bytes up to some earlier place. -/
theorem earlier_windows {ws rest : List Bytes} {k : ℕ} (hk : offset ≤ k)
    (hbytes : (ws ++ rest).flatten = (file.drop offset).take (k - offset)) :
    ∃ k', offset ≤ k' ∧ k' ≤ k ∧ ws.flatten = (file.drop offset).take (k' - offset) := by
  rw [List.flatten_append] at hbytes
  have htake : ws.flatten <+: (file.drop offset).take (k - offset) := by
    rw [← hbytes]
    exact List.prefix_append _ _
  have hlength : ws.flatten.length ≤ k - offset := by
    have hall := congrArg List.length hbytes
    rw [List.length_append, List.length_take] at hall
    omega
  refine ⟨offset + ws.flatten.length, Nat.le_add_right _ _, by omega, ?_⟩
  rw [Nat.add_sub_cancel_left]
  exact List.prefix_iff_eq_take.mp (htake.trans (List.take_prefix _ _))

/-- Steps that leave the two tasks and the download alone leave the phase alone. -/
theorem ReadPhase.congr {size k : ℕ} {tail : List StreamItem} (h : ReadPhase size s tail k)
    (hpump : s'.pump = s.pump) (hreport : s'.report = s.report)
    (hposition : s'.position = s.position) : ReadPhase size s' tail k := by
  cases h with
  | live h₁ h₂ => exact hposition ▸ .live (hpump ▸ h₁) (hreport.trans h₂)
  | failing e h₁ h₂ h₃ => exact hposition ▸ .failing e (hpump.trans h₁) (hreport.trans h₂) (hposition ▸ h₃)
  | failed e h₁ h₂ h₃ => exact hposition ▸ .failed e (hpump.trans h₁) (hreport ▸ h₂) (hposition ▸ h₃)
  | whole h₁ h₂ h₃ => exact hposition ▸ .whole (hpump.trans h₁) (hreport ▸ h₂) (hposition.trans h₃)
  | broken _ h₁ h₂ h₃ => exact .broken k (hpump.trans h₁) (hreport ▸ h₂) (hposition ▸ h₃)
  | told _ h₁ h₂ h₃ => exact .told k (hpump.trans h₁) (hreport.trans h₂) (hposition ▸ h₃)

/-- Before a window is there, everything fetched is delivered. -/
theorem ReadPhase.idle {size k : ℕ} {tail : List StreamItem} (h : ReadPhase size s tail k)
    (hpump : s.pump = .checking ∨ s.pump = .fetching) :
    tail = [] ∧ k = s.position ∧ s.report = .waiting := by
  cases h with
  | live _ hreport => exact ⟨rfl, rfl, hreport⟩
  | failing e hother => simp [hother] at hpump
  | failed e hother => simp [hother] at hpump
  | whole hother => simp [hother] at hpump
  | broken _ hother => simp [hother] at hpump
  | told _ hother => simp [hother] at hpump

/-- An item on its way is a window, or the error the stream ends with. -/
theorem ReadPhase.sending {size k : ℕ} {tail : List StreamItem} (h : ReadPhase size s tail k)
    {item : StreamItem} (hpump : s.pump = .sending item) :
    k = s.position ∧ s.report = .waiting ∧
      ((∃ b, item = .window b) ∧ tail = [] ∨
        ∃ e, item = .failed e ∧ tail = [.failed e] ∧ s.position < size) := by
  cases h with
  | live hlive hreport =>
    rw [hpump] at hlive
    rcases hlive with hbad | hbad | ⟨b, hitem⟩
    · cases hbad
    · cases hbad
    · exact ⟨rfl, hreport, Or.inl ⟨⟨b, PumpState.sending.inj hitem⟩, rfl⟩⟩
  | failing e hother hreport hmore =>
    exact ⟨rfl, hreport, Or.inr ⟨e, PumpState.sending.inj (hpump.symm.trans hother), rfl, hmore⟩⟩
  | failed e hother => simp [hother] at hpump
  | whole hother => simp [hother] at hpump
  | broken _ hother => simp [hother] at hpump
  | told _ hother => simp [hother] at hpump

/-- A pump that panicked leaves one error to tell. -/
theorem ReadPhase.panicked {size k : ℕ} {tail : List StreamItem} (h : ReadPhase size s tail k)
    (hpump : s.pump = .panicked) (hreport : s.report ≠ .gone) : tail = [] ∧ k ≤ s.position := by
  cases h with
  | live hother => simp [hpump] at hother
  | failing e hother => simp [hpump] at hother
  | failed e hother => simp [hpump] at hother
  | whole hother => simp [hpump] at hother
  | broken _ _ _ hk => exact ⟨rfl, hk⟩
  | told _ _ hgone => exact absurd hgone hreport

/-- A pump that returned sent its error before the end, or everything. -/
theorem ReadPhase.returned {size k : ℕ} {tail : List StreamItem} (h : ReadPhase size s tail k)
    (hpump : s.pump = .returned) :
    k = s.position ∧ s.report ≠ .reporting ∧
      ((∃ e, tail = [.failed e]) ∧ s.position < size ∨ tail = [] ∧ s.position = size) := by
  cases h with
  | live hother => simp [hpump] at hother
  | failing e hother => simp [hpump] at hother
  | failed e _ hreport hmore => exact ⟨rfl, hreport, Or.inl ⟨⟨e, rfl⟩, hmore⟩⟩
  | whole _ hreport hend => exact ⟨rfl, hreport, Or.inr ⟨rfl, hend⟩⟩
  | broken _ hother => simp [hpump] at hother
  | told _ hother => simp [hpump] at hother

theorem ReadPhase.reporting {size k : ℕ} {tail : List StreamItem}
    (h : ReadPhase size s tail k) (hreport : s.report = .reporting) :
    s.pump = .panicked ∧ tail = [] ∧ k ≤ s.position := by
  cases h with
  | live _ hother => simp [hreport] at hother
  | failing e _ hother => simp [hreport] at hother
  | failed e _ hother => exact absurd hreport hother
  | whole _ hother => exact absurd hreport hother
  | broken _ hpump _ hk => exact ⟨hpump, rfl, hk⟩
  | told _ _ hother => simp [hreport] at hother

/-- A panic loses at most the item the pump holds. -/
theorem kept_on_panic (hpump : s.pump.running = true) {windows : List Bytes}
    {tail : List StreamItem} {k : ℕ} (hk : offset ≤ k)
    (hitems : s.received ++ s.channel ++ s.pump.held = windows.map .window ++ tail)
    (hbytes : windows.flatten = (file.drop offset).take (k - offset))
    (hphase : ReadPhase file.length s tail k) :
    ∃ (ws : List Bytes) (k' : ℕ), offset ≤ k' ∧ k' ≤ s.position ∧
      s.received ++ s.channel = ws.map .window ∧
      ws.flatten = (file.drop offset).take (k' - offset) ∧ s.report = .waiting := by
  have hsent (hheld : s.pump.held = []) (htail : tail = []) :
      s.received ++ s.channel = windows.map .window := by
    rw [hheld, htail, List.append_nil, List.append_nil] at hitems
    exact hitems
  cases hstate : s.pump with
  | checking =>
    obtain ⟨htail, rfl, hreport⟩ := hphase.idle (Or.inl hstate)
    exact ⟨windows, _, hk, le_refl _, hsent (by rw [hstate]; rfl) htail, hbytes, hreport⟩
  | fetching =>
    obtain ⟨htail, rfl, hreport⟩ := hphase.idle (Or.inr hstate)
    exact ⟨windows, _, hk, le_refl _, hsent (by rw [hstate]; rfl) htail, hbytes, hreport⟩
  | sending item =>
    obtain ⟨rfl, hreport, hitem⟩ := hphase.sending hstate
    rw [hstate, PumpState.held] at hitems
    rcases hitem with ⟨⟨b, rfl⟩, rfl⟩ | ⟨e, rfl, rfl, -⟩
    · -- the window that is lost is the last one
      rcases List.eq_nil_or_concat windows with rfl | ⟨ws, last, rfl⟩
      · simp at hitems
      · rw [List.concat_eq_append, List.append_nil, List.map_append, List.map_singleton] at hitems
        have hkept := List.append_inj_left' hitems rfl
        obtain ⟨k', hk', hle, hflat⟩ := earlier_windows hk (List.concat_eq_append ▸ hbytes)
        exact ⟨ws, k', hk', hle, hkept, hflat, hreport⟩
    · exact ⟨windows, _, hk, le_refl _, List.append_inj_left' hitems rfl, hbytes, hreport⟩
  | returned => rw [hstate] at hpump; cases hpump
  | panicked => rw [hstate] at hpump; cases hpump

/-- Every step keeps the order and the phase. -/
theorem ReadInv.step (h : ReadInv file offset s) (hstep : ReadStep file s s') :
    ReadInv file offset s' := by
  obtain ⟨windows, tail, k, hk, hposition, hitems, hbytes, hphase⟩ := h
  cases hstep with
  | cancel hlive =>
    exact ⟨windows, tail, k, hk, hposition, hitems, hbytes, hphase.congr rfl rfl rfl⟩
  | checkCancelled hpump hcancelled hmore =>
    obtain ⟨rfl, rfl, hreport⟩ := hphase.idle (Or.inl hpump)
    rw [hpump] at hitems
    refine ⟨windows, [.failed .cancelled], s.position, hk, hposition, ?_, hbytes,
      .failing .cancelled rfl hreport hmore⟩
    simpa [PumpState.held, ← List.append_assoc] using hitems
  | checkPassed hpump hlive =>
    obtain ⟨rfl, rfl, hreport⟩ := hphase.idle (Or.inl hpump)
    rw [hpump] at hitems
    exact ⟨windows, [], s.position, hk, hposition, hitems, hbytes, .live (Or.inr (Or.inl rfl)) hreport⟩
  | window n hpump hmore hn =>
    obtain ⟨rfl, rfl, hreport⟩ := hphase.idle (Or.inr hpump)
    rw [hpump] at hitems
    refine ⟨windows ++ [(file.drop s.position).take n], [], s.position + n, by omega, hn, ?_, ?_,
      .live (Or.inr (Or.inr ⟨_, rfl⟩)) hreport⟩
    · simpa [PumpState.held, ← List.append_assoc] using hitems
    · rw [List.flatten_append, hbytes, List.flatten_singleton, take_window hk]
  | windowError e hpump hmore =>
    obtain ⟨rfl, rfl, hreport⟩ := hphase.idle (Or.inr hpump)
    rw [hpump] at hitems
    refine ⟨windows, [.failed (.ofMtp e)], s.position, hk, hposition, ?_, hbytes,
      .failing (.ofMtp e) rfl hreport hmore⟩
    simpa [PumpState.held, ← List.append_assoc] using hitems
  | windowEnd hpump hend =>
    obtain ⟨rfl, rfl, hreport⟩ := hphase.idle (Or.inr hpump)
    rw [hpump] at hitems
    refine ⟨windows, [], s.position, hk, hposition, hitems, hbytes, .whole rfl ?_ hend⟩
    rw [hreport]
    decide
  | send item hpump hroom =>
    obtain ⟨rfl, hreport, hitem⟩ := hphase.sending hpump
    rw [hpump] at hitems
    rcases hitem with ⟨⟨b, rfl⟩, rfl⟩ | ⟨e, rfl, rfl, hmore⟩
    · refine ⟨windows, [], s.position, hk, hposition, ?_, hbytes, .live (Or.inl rfl) hreport⟩
      simpa [PumpState.held, StreamItem.isErr] using hitems
    · refine ⟨windows, [.failed e], s.position, hk, hposition, ?_, hbytes,
        .failed e rfl ?_ hmore⟩
      · simpa [PumpState.held, StreamItem.isErr] using hitems
      · rw [hreport]
        decide
  | panic hpump =>
    -- what the pump held is lost: the windows sent so far end at an earlier `k'`
    obtain ⟨ws, k', hk', hle, hws, hflat, hwaiting⟩ :=
      kept_on_panic hpump hk hitems hbytes hphase
    refine ⟨ws, [], k', hk', hposition, ?_, hflat, .broken k' rfl ?_ hle⟩
    · rw [List.append_nil, ← hws]
      simp [PumpState.held]
    · rw [hwaiting]
      simp
  | noticePanic hpump hreport =>
    obtain ⟨rfl, hle⟩ := hphase.panicked hpump (by rw [hreport]; decide)
    exact ⟨windows, [], k, hk, hposition, hitems, hbytes, .broken k hpump (by simp) hle⟩
  | noticeReturn hpump hreport =>
    obtain ⟨rfl, -, hend⟩ := hphase.returned hpump
    rcases hend with ⟨⟨e, rfl⟩, hmore⟩ | ⟨rfl, hend⟩
    · exact ⟨windows, [.failed e], s.position, hk, hposition, hitems, hbytes,
        .failed e hpump (by simp) hmore⟩
    · exact ⟨windows, [], s.position, hk, hposition, hitems, hbytes,
        .whole hpump (by simp) hend⟩
  | report hreport hroom =>
    obtain ⟨hpump, rfl, hle⟩ := hphase.reporting hreport
    rw [hpump] at hitems
    refine ⟨windows, [.pumpFailed], k, hk, hposition, ?_, hbytes, .told k hpump rfl hle⟩
    rw [panicked_held, List.append_nil, List.append_nil] at hitems
    rw [← hitems]
    simp [hpump]
  | receive item rest hchannel =>
    refine ⟨windows, tail, k, hk, hposition, ?_, hbytes, hphase.congr rfl rfl rfl⟩
    rw [← hitems, hchannel]
    simp

theorem ReadInv.run (h : ReadInv file offset s) (hrun : ReadRun file s s') :
    ReadInv file offset s' := by
  induction hrun with
  | refl => exact h
  | tail _ hstep ih => exact ih.step hstep

/-- The download only moves on, and never past the end. -/
theorem ReadStep.position_le (h : ReadStep file s s') (hs : s.position ≤ file.length) :
    s.position ≤ s'.position ∧ s'.position ≤ file.length := by
  cases h with
  | window n hpump hmore hn => exact ⟨Nat.le_add_right _ _, hn⟩
  | _ => exact ⟨le_refl _, hs⟩

theorem ReadRun.position_le (h : ReadRun file s s') (hs : s.position ≤ file.length) :
    s.position ≤ s'.position ∧ s'.position ≤ file.length := by
  induction h with
  | refl => exact ⟨le_refl _, hs⟩
  | tail _ hstep ih =>
    obtain ⟨hle, hend⟩ := hstep.position_le ih.2
    exact ⟨ih.1.trans hle, hend⟩

/-- What is received stays received. -/
theorem ReadRun.received_prefix (h : ReadRun file s s') : s.received <+: s'.received := by
  induction h with
  | refl => exact List.prefix_rfl
  | tail _ hstep ih =>
    apply ih.trans
    cases hstep with
    | receive item rest hchannel => exact List.prefix_append _ _
    | _ => exact List.prefix_rfl

/-- What the reader has of a stream: windows of the file from the offset to `k`, then at most
one error. -/
structure Streamed (file : Bytes) (offset : ℕ) (received : List StreamItem)
    (windows : List Bytes) (k : ℕ) (tail : List StreamItem) : Prop where
  offset_le : offset ≤ k
  le_size : k ≤ file.length
  items : received = windows.map .window ++ tail
  bytes : windows.flatten = (file.drop offset).take (k - offset)
  last : tail = [] ∨ ∃ item, tail = [item] ∧ item.isErr = true

/-- The tail of a phase is at most one error. -/
theorem ReadPhase.tail_err {size k : ℕ} {tail : List StreamItem}
    (h : ReadPhase size s tail k) : tail = [] ∨ ∃ item, tail = [item] ∧ item.isErr = true := by
  cases h with
  | live => exact Or.inl rfl
  | failing e => exact Or.inr ⟨_, rfl, rfl⟩
  | failed e => exact Or.inr ⟨_, rfl, rfl⟩
  | whole => exact Or.inl rfl
  | broken => exact Or.inl rfl
  | told => exact Or.inr ⟨_, rfl, rfl⟩

theorem ReadPhase.le_position {size k : ℕ} {tail : List StreamItem}
    (h : ReadPhase size s tail k) : k ≤ s.position := by
  cases h with
  | broken _ _ _ hk => exact hk
  | told _ _ _ hk => exact hk
  | _ => exact le_refl _

/-- The items received so far are a prefix of what is produced. -/
theorem ReadInv.delivered (h : ReadInv file offset s) :
    ∃ windows k tail, Streamed file offset s.received windows k tail := by
  obtain ⟨windows, tail, k, hk, hposition, hitems, hbytes, hphase⟩ := h
  have hle : k ≤ file.length := hphase.le_position.trans hposition
  have hprefix : s.received <+: windows.map .window ++ tail := by
    rw [← hitems, List.append_assoc]
    exact List.prefix_append _ _
  have hwindows (hpre : s.received <+: windows.map .window) :
      ∃ ws k tail, Streamed file offset s.received ws k tail := by
    have heq := List.prefix_iff_eq_take.mp hpre
    rw [← List.map_take] at heq
    rw [← List.take_append_drop s.received.length windows] at hbytes
    obtain ⟨k', hk', hk'le, hflat⟩ := earlier_windows hk hbytes
    refine ⟨windows.take s.received.length, k', [], hk', hk'le.trans hle, ?_, hflat, Or.inl rfl⟩
    rwa [List.append_nil]
  rcases hphase.tail_err with rfl | ⟨item, rfl, herr⟩
  · rw [List.append_nil] at hprefix
    exact hwindows hprefix
  · rcases List.prefix_concat_iff.mp hprefix with heq | hpre
    · exact ⟨windows, k, [item], hk, hle, heq, hbytes, Or.inr ⟨item, rfl, herr⟩⟩
    · exact hwindows hpre

/-- At the end of the stream everything is received, and without an error that is all. -/
theorem ReadInv.ended (h : ReadInv file offset s) (hend : s.Ended) :
    ∃ windows k tail, Streamed file offset s.received windows k tail ∧
      (tail = [] → k = file.length) := by
  obtain ⟨windows, tail, k, hk, hposition, hitems, hbytes, hphase⟩ := h
  obtain ⟨hpump, hreport, hchannel⟩ := hend
  have hheld : s.pump.held = [] := by
    rcases hpump with hpump | hpump
    · rw [hpump]
      rfl
    · rw [hpump]
      rfl
  rw [hchannel, hheld, List.append_nil, List.append_nil] at hitems
  refine ⟨windows, k, tail, ⟨hk, hphase.le_position.trans hposition, hitems, hbytes,
    hphase.tail_err⟩, ?_⟩
  intro htail
  rcases hpump with hpump | hpump
  · obtain ⟨rfl, -, hlast⟩ := hphase.returned hpump
    rcases hlast with ⟨⟨e, hfailed⟩, -⟩ | ⟨-, hwhole⟩
    · rw [hfailed] at htail
      cases htail
    · exact hwhole
  · -- a panic is told before the second sender is dropped
    cases hphase with
    | live hother => simp [hpump] at hother
    | failing e hother => simp [hpump] at hother
    | failed e hother => simp [hpump] at hother
    | whole hother => simp [hpump] at hother
    | broken _ _ hwaiting => exact absurd hreport hwaiting
    | told => cases htail

/-- Nothing comes behind an error. -/
theorem Streamed.last_err {received more : List StreamItem} {windows : List Bytes} {k : ℕ}
    {tail : List StreamItem} (h : Streamed file offset (received ++ more) windows k tail)
    {item : StreamItem} (hitem : item ∈ received) (herr : item.isErr = true) : more = [] := by
  by_contra hmore
  have hfront : item ∈ (received ++ more).dropLast := by
    rw [List.dropLast_append_of_ne_nil hmore]
    exact List.mem_append_left _ hitem
  have hwindow : item ∈ windows.map StreamItem.window := by
    rw [h.items] at hfront
    rcases h.last with rfl | ⟨last, rfl, -⟩
    · rw [List.append_nil] at hfront
      exact List.dropLast_subset _ hfront
    · rwa [List.dropLast_concat] at hfront
  obtain ⟨b, -, rfl⟩ := List.mem_map.mp hwindow
  cases herr

/-- With every byte fetched, only a panic is left to go wrong. -/
theorem ReadInv.fetched (h : ReadInv file offset s) (hend : s.position = file.length) :
    (∀ e, .failed e ∉ s.received) ∧
      (s.pump ≠ .panicked → ∀ item ∈ s.received, item.isErr = false) := by
  obtain ⟨windows, tail, k, -, -, hitems, -, hphase⟩ := h
  have hmem (item : StreamItem) (hitem : item ∈ s.received) :
      (∃ b, item = .window b) ∨ item ∈ tail := by
    have hall : item ∈ windows.map StreamItem.window ++ tail := by
      rw [← hitems]
      exact List.mem_append_left _ (List.mem_append_left _ hitem)
    rcases List.mem_append.mp hall with hwindow | htail
    · obtain ⟨b, -, rfl⟩ := List.mem_map.mp hwindow
      exact Or.inl ⟨b, rfl⟩
    · exact Or.inr htail
  have htail : tail = [] ∨ tail = [.pumpFailed] ∧ s.pump = .panicked := by
    cases hphase with
    | live => exact Or.inl rfl
    | failing e _ _ hmore => omega
    | failed e _ _ hmore => omega
    | whole => exact Or.inl rfl
    | broken => exact Or.inl rfl
    | told _ hpump => exact Or.inr ⟨rfl, hpump⟩
  constructor
  · intro e he
    rcases hmem _ he with ⟨b, hb⟩ | hin
    · cases hb
    · rcases htail with rfl | ⟨rfl, -⟩
      · cases hin
      · cases List.mem_singleton.mp hin
  · intro hpump item hitem
    rcases hmem item hitem with ⟨b, rfl⟩ | hin
    · rfl
    · rcases htail with rfl | ⟨-, hpanicked⟩
      · cases hin
      · exact absurd hpanicked hpump

/-- Until the stream ends some task, the device or the reader can move. -/
theorem read_progress (hposition : s.position ≤ file.length) (h : ¬s.Ended) :
    ∃ s', ReadStep file s s' ∧ s'.cancelled = s.cancelled := by
  cases hchannel : s.channel with
  | cons item rest => exact ⟨_, .receive s item rest hchannel, rfl⟩
  | nil =>
    have hroom : s.channel.length < PUMP_DEPTH := by
      rw [hchannel]
      decide
    cases hpump : s.pump with
    | checking =>
      by_cases hcancel : s.cancelled = true ∧ s.position < file.length
      · exact ⟨_, .checkCancelled s hpump hcancel.1 hcancel.2, rfl⟩
      · exact ⟨_, .checkPassed s hpump hcancel, rfl⟩
    | fetching =>
      rcases hposition.lt_or_eq with hmore | hend
      · exact ⟨_, .window s 1 hpump hmore hmore, rfl⟩
      · exact ⟨_, .windowEnd s hpump hend, rfl⟩
    | sending item => exact ⟨_, .send s item hpump hroom, rfl⟩
    | returned =>
      cases hreport : s.report with
      | waiting => exact ⟨_, .noticeReturn s hpump hreport, rfl⟩
      | reporting => exact ⟨_, .report s hreport hroom, rfl⟩
      | gone => exact absurd ⟨Or.inl hpump, hreport, hchannel⟩ h
    | panicked =>
      cases hreport : s.report with
      | waiting => exact ⟨_, .noticePanic s hpump hreport, rfl⟩
      | reporting => exact ⟨_, .report s hreport hroom, rfl⟩
      | gone => exact absurd ⟨Or.inr hpump, hreport, hchannel⟩ h

end Runs

/-- How far the pump is from its end, with `more` bytes left to fetch. -/
def PumpState.rank (more : ℕ) : PumpState → ℕ
  | .checking => 5 * more + 12
  | .fetching => 5 * more + 11
  | .sending (.window _) => 5 * more + 13
  | .sending _ => 10
  | _ => 0

def ReportState.rank : ReportState → ℕ
  | .waiting => 3
  | .reporting => 2
  | .gone => 0

/-- A bound on the steps that are left. -/
def ReadState.rank (file : Bytes) (s : ReadState) : ℕ :=
  2 * (s.pump.rank (file.length - s.position) + s.report.rank) + s.channel.length +
    if s.cancelled then 0 else 1

theorem running_rank {pump : PumpState} (h : pump.running = true) (more : ℕ) :
    10 ≤ pump.rank more := by
  match pump, h with
  | .checking, _ => simp only [PumpState.rank]; omega
  | .fetching, _ => simp only [PumpState.rank]; omega
  | .sending (.window _), _ => simp only [PumpState.rank]; omega
  | .sending (.failed _), _ => exact le_refl 10
  | .sending .pumpFailed, _ => exact le_refl 10

/-- Every step brings the end nearer, unless the device delivers an empty window. -/
theorem ReadStep.rank_lt {file : Bytes} {s s' : ReadState} (h : ReadStep file s s') :
    s'.rank file < s.rank file ∨ s'.pump = .sending (.window []) := by
  simp only [ReadState.rank]
  cases h with
  | cancel hlive => simp [hlive]
  | checkCancelled hpump _ hmore =>
    left
    simp only [hpump, PumpState.rank]
    omega
  | checkPassed hpump _ =>
    left
    simp only [hpump, PumpState.rank]
    omega
  | window n hpump hmore hn =>
    -- a window that moves nothing leaves the position where it was
    by_cases hempty : n = 0
    · right
      rw [hempty, List.take_zero]
    · left
      simp only [hpump, PumpState.rank]
      omega
  | windowError e hpump hmore =>
    left
    simp only [hpump, PumpState.rank]
    omega
  | windowEnd hpump hend =>
    left
    simp only [hpump, PumpState.rank]
    omega
  | send item hpump hroom =>
    left
    cases item with
    | window b =>
      simp [hpump, PumpState.rank, StreamItem.isErr]
      omega
    | failed e =>
      simp [hpump, PumpState.rank, StreamItem.isErr]
      omega
    | pumpFailed =>
      simp [hpump, PumpState.rank, StreamItem.isErr]
      omega
  | panic hpump =>
    left
    have hrank := running_rank hpump (file.length - s.position)
    have hdone : PumpState.panicked.rank (file.length - s.position) = 0 := rfl
    simp only [hdone]
    omega
  | noticePanic hpump hreport => simp [hreport, ReportState.rank]
  | noticeReturn hpump hreport => simp [hreport, ReportState.rank]
  | report hreport hroom =>
    left
    simp [hreport, ReportState.rank]
    omega
  | receive item rest hchannel => simp [hchannel]

/-- What holds at every moment of a read. -/
structure CleanRead (file : Bytes) (offset : ℕ) (s : ReadState) : Prop where
  delivered : ∃ windows k tail, Streamed file offset s.received windows k tail ∧
    (s.Ended → tail = [] → k = file.length)
  final : ∀ item ∈ s.received, item.isErr = true →
    ∀ s', ReadRun file s s' → s'.received = s.received
  fetched : s.position = file.length → ∀ s', ReadRun file s s' →
    (∀ e, .failed e ∉ s'.received) ∧
      (s'.pump ≠ .panicked → ∀ item ∈ s'.received, item.isErr = false)
  progress : ¬s.Ended → ∃ s', ReadStep file s s' ∧ s'.cancelled = s.cancelled
  shorter : ∀ s', ReadStep file s s' →
    s'.rank file < s.rank file ∨ s'.pump = .sending (.window [])

/-- A read that ends without an error has delivered every byte. -/
theorem device_read_clean {file : Bytes} {offset : ℕ} {s : ReadState}
    (hoffset : offset ≤ file.length) (hrun : ReadRun file (ReadState.start offset) s) :
    CleanRead file offset s := by
  have hinv : ReadInv file offset s := (ReadInv.start hoffset).run hrun
  have hposition : s.position ≤ file.length := (hrun.position_le hoffset).2
  refine ⟨?_, ?_, ?_, read_progress hposition, fun s' hstep => hstep.rank_lt⟩
  · by_cases hend : s.Ended
    · obtain ⟨windows, k, tail, hdelivered, hwhole⟩ := hinv.ended hend
      exact ⟨windows, k, tail, hdelivered, fun _ => hwhole⟩
    · obtain ⟨windows, k, tail, hdelivered⟩ := hinv.delivered
      exact ⟨windows, k, tail, hdelivered, fun h => absurd h hend⟩
  · intro item hitem herr s' hs'
    obtain ⟨more, hmore⟩ := hs'.received_prefix
    obtain ⟨windows, k, tail, hdelivered⟩ := (hinv.run hs').delivered
    rw [← hmore] at hdelivered
    rw [← hmore, hdelivered.last_err hitem herr, List.append_nil]
  · intro hall s' hs'
    have hbounds := hs'.position_le hposition
    exact (hinv.run hs').fetched (le_antisymm hbounds.2 (hall ▸ hbounds.1))

section Sample

private def threeBytes : Bytes := [1, 2, 3]

/-- A read of the last two bytes that is over. -/
private def readOver : ReadState :=
  ⟨3, false, .returned, .gone, [], [.window [2, 3]]⟩

private theorem readOver_run : ReadRun threeBytes (ReadState.start 1) readOver := by
  apply Relation.ReflTransGen.head (ReadStep.checkPassed _ rfl (by decide))
  apply Relation.ReflTransGen.head (ReadStep.window _ 2 rfl (by decide) (by decide))
  apply Relation.ReflTransGen.head (ReadStep.send _ _ rfl (by decide))
  apply Relation.ReflTransGen.head (ReadStep.checkPassed _ rfl (by decide))
  apply Relation.ReflTransGen.head (ReadStep.windowEnd _ rfl rfl)
  apply Relation.ReflTransGen.head (ReadStep.noticeReturn _ rfl rfl)
  exact Relation.ReflTransGen.single (ReadStep.receive _ (.window [2, 3]) [] rfl)

theorem device_read_clean_over :
    ReadRun threeBytes (ReadState.start 1) readOver ∧ readOver.Ended ∧
      CleanRead threeBytes 1 readOver :=
  ⟨readOver_run, ⟨Or.inl rfl, rfl, rfl⟩, device_read_clean (by decide) readOver_run⟩

end Sample

end MtpxCore
