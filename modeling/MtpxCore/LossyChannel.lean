import Mathlib.Data.List.Basic
import Mathlib.Logic.Relation
import Mathlib.Order.WellFounded

/-! A bounded channel from a sender to a receiver, each a labelled transition system. A message
waits for room in the buffer, except that a lossy one is dropped instead. Whatever the
interleaving, the receiver gets what was sent, in order, without some of the lossy messages. -/
namespace LossyChannel

variable {σ ρ α β : Type*}

/-- The second list is the first without some of its lossy messages. -/
inductive Kept (lossy : α → Bool) : List α → List α → Prop
  | nil : Kept lossy [] []
  | keep {xs ys : List α} (x : α) : Kept lossy xs ys → Kept lossy (x :: xs) (x :: ys)
  | drop {xs ys : List α} {x : α} : lossy x = true → Kept lossy xs ys → Kept lossy (x :: xs) ys

namespace Kept

variable {lossy : α → Bool} {xs ys xs' ys' : List α}

theorem refl (xs : List α) : Kept lossy xs xs := by
  induction xs with
  | nil => exact .nil
  | cons x xs ih => exact .keep x ih

theorem append (h : Kept lossy xs ys) (h' : Kept lossy xs' ys') :
    Kept lossy (xs ++ xs') (ys ++ ys') := by
  induction h with
  | nil => exact h'
  | keep x _ ih => exact .keep x ih
  | drop hx _ ih => exact .drop hx ih

theorem sublist (h : Kept lossy xs ys) : ys.Sublist xs := by
  induction h with
  | nil => exact List.nil_sublist []
  | keep x _ ih => exact ih.cons_cons x
  | drop _ _ ih => exact ih.cons _

/-- A message that is not lossy is not lost. -/
theorem mem (h : Kept lossy xs ys) {x : α} (hx : x ∈ xs) (hlossy : lossy x = false) : x ∈ ys := by
  induction h with
  | nil => exact hx
  | keep y _ ih =>
    rcases List.mem_cons.mp hx with rfl | hx
    · exact List.mem_cons_self
    · exact List.mem_cons_of_mem _ (ih hx)
  | drop hy _ ih =>
    rcases List.mem_cons.mp hx with rfl | hx
    · rw [hlossy] at hy
      exact absurd hy Bool.false_ne_true
    · exact ih hx

/-- What is kept of two parts is kept of each. -/
theorem split (h : Kept lossy (xs ++ xs') ys) :
    ∃ zs zs', ys = zs ++ zs' ∧ Kept lossy xs zs ∧ Kept lossy xs' zs' := by
  induction xs generalizing ys with
  | nil => exact ⟨[], ys, rfl, .nil, h⟩
  | cons x xs ih =>
    cases h with
    | keep _ h =>
      obtain ⟨zs, zs', heq, hz, hz'⟩ := ih h
      exact ⟨x :: zs, zs', by rw [heq, List.cons_append], .keep x hz, hz'⟩
    | drop hx h =>
      obtain ⟨zs, zs', heq, hz, hz'⟩ := ih h
      exact ⟨zs, zs', heq, .drop hx hz, hz'⟩

/-- What came first is kept of what was sent first. -/
theorem prefix_of (h : Kept lossy xs (ys ++ ys')) : ∃ zs, zs <+: xs ∧ Kept lossy zs ys := by
  induction xs generalizing ys with
  | nil =>
    cases ys with
    | nil => exact ⟨[], List.nil_prefix, .nil⟩
    | cons y ys => cases h
  | cons x xs ih =>
    cases ys with
    | nil => exact ⟨[], List.nil_prefix, .nil⟩
    | cons y ys =>
      cases h with
      | keep _ h =>
        obtain ⟨zs, hz, hk⟩ := ih h
        exact ⟨x :: zs, List.cons_prefix_cons.mpr ⟨rfl, hz⟩, .keep x hk⟩
      | drop hx h =>
        obtain ⟨zs, hz, hk⟩ := ih h
        exact ⟨x :: zs, List.cons_prefix_cons.mpr ⟨rfl, hz⟩, .drop hx hk⟩

theorem filter (h : Kept lossy xs ys) (p : α → Bool) : Kept lossy (xs.filter p) (ys.filter p) := by
  induction h with
  | nil => exact .nil
  | keep x _ ih =>
    cases hp : p x with
    | true => simpa [List.filter_cons_of_pos hp] using Kept.keep x ih
    | false => simpa [hp] using ih
  | @drop xs ys x hx _ ih =>
    cases hp : p x with
    | true => simpa [List.filter_cons_of_pos hp] using Kept.drop hx ih
    | false => simpa [hp] using ih

/-- Messages that are one kind of a larger type of messages. -/
theorem of_map {lossy' : β → Bool} {f : β → α} (hf : ∀ b, lossy (f b) = lossy' b) {bs : List β}
    (h : Kept lossy (bs.map f) ys) : ∃ cs, ys = cs.map f ∧ Kept lossy' bs cs := by
  induction bs generalizing ys with
  | nil =>
    cases h with
    | nil => exact ⟨[], rfl, .nil⟩
  | cons b bs ih =>
    cases h with
    | keep _ h =>
      obtain ⟨cs, rfl, hk⟩ := ih h
      exact ⟨b :: cs, rfl, .keep b hk⟩
    | drop hb h =>
      obtain ⟨cs, rfl, hk⟩ := ih h
      exact ⟨cs, rfl, .drop (hf b ▸ hb) hk⟩

end Kept

/-- What a labelled transition system does, with the labels it has left. -/
inductive Trace (R : σ → Option α → σ → Prop) (s : σ) : List α → σ → Prop
  | refl : Trace R s [] s
  | silent {xs : List α} {t u : σ} : Trace R s xs t → R t none u → Trace R s xs u
  | label {xs : List α} {t u : σ} {x : α} : Trace R s xs t → R t (some x) u →
      Trace R s (xs ++ [x]) u

structure State (σ ρ α : Type*) where
  sender : σ
  buffer : List α
  received : List α
  receiver : ρ

section System

variable (lossy : α → Bool) (capacity : ℕ) (Sends : σ → Option α → σ → Prop)
  (Receives : ρ → Option α → ρ → Prop)

inductive Step : State σ ρ α → State σ ρ α → Prop
  | work {s : State σ ρ α} {p : σ} : Sends s.sender none p → Step s { s with sender := p }
  | send {s : State σ ρ α} {p : σ} {x : α} : Sends s.sender (some x) p →
      s.buffer.length < capacity → Step s { s with sender := p, buffer := s.buffer ++ [x] }
  | drop {s : State σ ρ α} {p : σ} {x : α} : Sends s.sender (some x) p → lossy x = true →
      capacity ≤ s.buffer.length → Step s { s with sender := p }
  | receive {s : State σ ρ α} {r : ρ} {x : α} {rest : List α} : s.buffer = x :: rest →
      Receives s.receiver (some x) r →
      Step s { s with buffer := rest, received := s.received ++ [x], receiver := r }
  | idle {s : State σ ρ α} {r : ρ} : Receives s.receiver none r → Step s { s with receiver := r }

abbrev Run : State σ ρ α → State σ ρ α → Prop :=
  Relation.ReflTransGen (Step lossy capacity Sends Receives)

/-- Nothing sent, nothing received. -/
def State.start (sender : σ) (receiver : ρ) : State σ ρ α := ⟨sender, [], [], receiver⟩

variable {lossy capacity Sends Receives} {s s' : State σ ρ α}

/-- A moment of a run: what the sender has sent, and what is left of it. -/
def Sound (lossy : α → Bool) (Sends : σ → Option α → σ → Prop) (Receives : ρ → Option α → ρ → Prop)
    (sender : σ) (receiver : ρ) (s : State σ ρ α) : Prop :=
  ∃ sent, Trace Sends sender sent s.sender ∧ Trace Receives receiver s.received s.receiver ∧
    Kept lossy sent (s.received ++ s.buffer)

theorem Sound.step {sender : σ} {receiver : ρ} (h : Sound lossy Sends Receives sender receiver s)
    (hstep : Step lossy capacity Sends Receives s s') :
    Sound lossy Sends Receives sender receiver s' := by
  obtain ⟨sent, hsender, hreceiver, hkept⟩ := h
  cases hstep with
  | work hsends => exact ⟨sent, hsender.silent hsends, hreceiver, hkept⟩
  | @send p x hsends _ =>
    refine ⟨sent ++ [x], hsender.label hsends, hreceiver, ?_⟩
    have hmore := hkept.append (Kept.refl [x])
    rwa [List.append_assoc] at hmore
  | @drop p x hsends hlossy _ =>
    refine ⟨sent ++ [x], hsender.label hsends, hreceiver, ?_⟩
    have hmore := hkept.append (Kept.drop hlossy Kept.nil)
    rwa [List.append_nil] at hmore
  | @receive r x rest hbuffer hreceives =>
    refine ⟨sent, hsender, hreceiver.label hreceives, ?_⟩
    rw [hbuffer] at hkept
    simpa using hkept
  | idle hreceives => exact ⟨sent, hsender, hreceiver.silent hreceives, hkept⟩

/-- In every run the receiver has what was sent, in order, but for lossy messages. -/
theorem Run.sound {sender : σ} {receiver : ρ}
    (h : Run lossy capacity Sends Receives (State.start sender receiver) s) :
    Sound lossy Sends Receives sender receiver s := by
  induction h with
  | refl => exact ⟨[], .refl, .refl, .nil⟩
  | tail _ hstep ih => exact ih.step hstep

/-- With a receiver that takes every message, nothing waits forever. -/
theorem not_stuck (hcapacity : 0 < capacity) (hready : ∀ r x, ∃ r', Receives r (some x) r')
    (h : (∃ l p, Sends s.sender l p) ∨ s.buffer ≠ []) :
    ∃ s', Step lossy capacity Sends Receives s s' ∧
      (s'.receiver = s.receiver ∨ ∃ x, Receives s.receiver (some x) s'.receiver) := by
  cases hbuffer : s.buffer with
  | cons x rest =>
    obtain ⟨r, hr⟩ := hready s.receiver x
    exact ⟨_, .receive hbuffer hr, .inr ⟨x, hr⟩⟩
  | nil =>
    obtain ⟨l, p, hsends⟩ := h.resolve_right fun hne => hne hbuffer
    cases l with
    | none => exact ⟨_, .work hsends, .inl rfl⟩
    | some x =>
      have hroom : s.buffer.length < capacity := by
        rw [hbuffer]
        exact hcapacity
      exact ⟨_, .send hsends hroom, .inl rfl⟩

/-- A message costs its sender two steps of the rank, one of them for the buffer. -/
def State.rank (f : σ → ℕ) (g : ρ → ℕ) (s : State σ ρ α) : ℕ :=
  2 * f s.sender + s.buffer.length + g s.receiver

/-- No run goes on forever when neither side does. -/
theorem wellFounded {f : σ → ℕ} {g : ρ → ℕ} (hsends : ∀ p l p', Sends p l p' → f p' < f p)
    (hidle : ∀ r r', Receives r none r' → g r' < g r)
    (hreceives : ∀ r x r', Receives r (some x) r' → g r' ≤ g r) :
    WellFounded fun s' s : State σ ρ α => Step lossy capacity Sends Receives s s' := by
  refine Subrelation.wf ?_ (measure (State.rank f g)).wf
  intro s' s hstep
  change s'.rank f g < s.rank f g
  cases hstep with
  | work h =>
    have hrank := hsends _ _ _ h
    simp only [State.rank]
    omega
  | send h _ =>
    have hrank := hsends _ _ _ h
    simp only [State.rank, List.length_append, List.length_singleton]
    omega
  | drop h _ _ =>
    have hrank := hsends _ _ _ h
    simp only [State.rank]
    omega
  | receive hbuffer h =>
    have hrank := hreceives _ _ _ h
    simp only [State.rank, hbuffer, List.length_cons]
    omega
  | idle h =>
    have hrank := hidle _ _ h
    simp only [State.rank]
    omega

end System

end LossyChannel
