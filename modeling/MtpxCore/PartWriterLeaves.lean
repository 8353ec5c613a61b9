import MtpxCore.PartWriterAtomic

/-! What a write leaves on the volume, however it ends: the four names of its path, some new
folders, and nothing else. -/
namespace MtpxCore

open CrashHoare

/-- A record of this transfer, counting `b` bytes. -/
def ownRecord (codec : SidecarCodec) (peer : Identity) (request : WriteRequest) (b : ℕ)
    (readable : Bool) : Obj :=
  .file (codec.encode { sidecarFor peer request with bytes := b }) readable

/-- The part and the record as they were, or what is left of them before the part is open. -/
structure Untouched (vol : Volume) (request : WriteRequest) (before : LocalTree)
    (f p s : Option Obj) : Prop where
  final : f = before.get vol request.path.toLocalPath
  part : p = before.get vol (localPartPath request.path.toLocalPath)
  side : s = before.get vol (localSidecarPath request.path.toLocalPath) ∨ s = none

/-- The part is a prefix of what it should become, and a record is an old one or one of this
transfer. -/
structure Underway (vol : Volume) (codec : SidecarCodec) (peer : Identity) (request : WriteRequest)
    (input : ByteStream) (before : LocalTree) (f p s : Option Obj) : Prop where
  final : f = before.get vol request.path.toLocalPath ∨
    ((before.get vol request.path.toLocalPath).all (fun obj => !obj.isDir) = true ∧ p = none ∧
      (request.keptBytes vol before ++ okBytes input).length = request.expectedSize ∧
      ∃ readable, f = some (.file (request.keptBytes vol before ++ okBytes input) readable))
  part : p = none ∨ ∃ landed readable, landed <+: okBytes input ∧
    p = some (.file (request.keptBytes vol before ++ landed) readable)
  side : s = before.get vol (localSidecarPath request.path.toLocalPath) ∨ s = none ∨
    ∃ b readable, s = some (ownRecord codec peer request b readable)

/-- The volume after a write: folders may have been added, and the four names hold what a
write can leave there. -/
def Leaves (vol : Volume) (codec : SidecarCodec) (peer : Identity) (request : WriteRequest)
    (input : ByteStream) (before after : LocalTree) : Prop :=
  ∃ d f p s t, Grown request.path.toLocalPath.length (before.disk vol) d ∧
    after.disk vol = Function.extend (cellKey vol request.path.toLocalPath) (Cells.of f p s t) d ∧
    (Untouched vol request before f p s ∨ Underway vol codec peer request input before f p s)

section Leaving

variable {vol : Volume} {env : Weather} {codec : SidecarCodec} {peer : Identity}
  {request : WriteRequest} {input : ByteStream} {w w' : World} {x : Writing}

/-- A part that was cut before it could be opened holds the bytes to keep. -/
theorem cut_kept {p : Option Obj} (h : Cut (w.tree.get vol (localPartPath request.path.toLocalPath))
    (resumePoint vol (w.tree.get vol (localPartPath request.path.toLocalPath)) request.resumeFrom) p) :
    ∃ readable, p = some (.file (request.keptBytes vol w.tree) readable) := by
  obtain ⟨readable, rfl⟩ := h
  refine ⟨readable, ?_⟩
  rw [WriteRequest.keptBytes]
  by_cases hle : resumePoint vol (w.tree.get vol (localPartPath request.path.toLocalPath))
      request.resumeFrom ≤ (bytesOf (w.tree.get vol (localPartPath request.path.toLocalPath))).length
  · rw [resumePoint_eq hle]
  · -- only a directory is longer than its bytes
    have hdir : bytesOf (w.tree.get vol (localPartPath request.path.toLocalPath)) = [] := by
      by_contra hne
      have hfile : (w.tree.get vol (localPartPath request.path.toLocalPath)).all
          fun obj => !obj.isDir := by
        cases hget : w.tree.get vol (localPartPath request.path.toLocalPath) with
        | none => rfl
        | some obj =>
          cases obj with
          | dir readable =>
            rw [hget] at hne
            exact absurd rfl hne
          | file bytes readable => rfl
          | danglingLink => rfl
          | special => rfl
      apply hle
      rw [resumePoint, statLen_eq hfile]
      split
      · assumption
      · exact Nat.zero_le _
    rw [hdir, List.take_nil, List.take_nil]

theorem NeverOpened.leaves (h : NeverOpened vol request w w') :
    Leaves vol codec peer request input w.tree w'.tree := by
  obtain ⟨d, p, s, t, hgrown, hp, hs, hd⟩ := h
  refine ⟨d, _, p, s, t, hgrown, hd, ?_⟩
  rcases hp with rfl | hcut
  · exact Or.inl ⟨rfl, rfl, hs⟩
  · obtain ⟨readable, rfl⟩ := cut_kept hcut
    refine Or.inr ⟨Or.inl rfl, Or.inr ⟨[], readable, List.nil_prefix, ?_⟩, hs.imp id Or.inl⟩
    rw [List.append_nil]

/-- A record of the write, or the one that was there, or none. -/
theorem Opened.side_cases (h : Opened vol codec peer request w x) {s : Option Obj}
    (hs : x.Recorded s) :
    s = w.tree.get vol (localSidecarPath request.path.toLocalPath) ∨ s = none ∨
      ∃ b readable, s = some (ownRecord codec peer request b readable) := by
  rcases hs with rfl | ⟨-, b, readable, rfl⟩
  · cases hres : x.resumable with
    | true => exact Or.inl (h.honoured hres)
    | false => exact Or.inr (Or.inl (h.reset hres))
  · refine Or.inr (Or.inr ⟨b, readable, ?_⟩)
    rw [h.sameCodec, h.sidecar]
    rfl

theorem Opened.onDisk (h : Opened vol codec peer request w x) {c : Cells}
    (hd : OnDisk x.vol x.finalPath x.disk c w') :
    w'.tree.disk vol = Function.extend (cellKey vol request.path.toLocalPath) c x.disk := by
  rw [OnDisk, h.sameVol, h.finalPath] at hd
  exact hd

theorem Opened.committed_leaves (h : Opened vol codec peer request w x)
    (hcomplete : x.Complete request input) (hw : x.Committed (okBytes input) w') :
    Leaves vol codec peer request input w.tree w'.tree := by
  obtain ⟨s, t, hs, hd⟩ := hw
  have hpre : x.pre = request.keptBytes vol w.tree := h.pre
  refine ⟨x.disk, _, none, s, t, h.disk, h.onDisk hd,
    Or.inr ⟨Or.inr ⟨h.notDir, rfl, ?_, ?_⟩, Or.inl rfl, ?_⟩⟩
  · rw [← hpre]
    exact hcomplete.2
  · exact ⟨x.readable, by rw [hpre]⟩
  · rcases hs with rfl | hs
    · exact Or.inr (Or.inl rfl)
    · exact h.side_cases hs

theorem Opened.interrupted_leaves (h : Opened vol codec peer request w x)
    (hw : x.Interrupted (okBytes input) w') :
    Leaves vol codec peer request input w.tree w'.tree := by
  obtain ⟨p, s, t, hp, hs, hd⟩ := hw
  have hpre : x.pre = request.keptBytes vol w.tree := h.pre
  refine ⟨x.disk, x.final, p, s, t, h.disk, h.onDisk hd,
    Or.inr ⟨Or.inl h.final, hp.imp id ?_, h.side_cases hs⟩⟩
  rintro ⟨landed, hl, rfl⟩
  exact ⟨landed, x.readable, hl, by rw [hpre]⟩

theorem Opened.refused_leaves (h : Opened vol codec peer request w x)
    (hw : x.Refused env request input w') :
    Leaves vol codec peer request input w.tree w'.tree := by
  have hpre : x.pre = request.keptBytes vol w.tree := h.pre
  obtain ⟨landed, b, hl, ⟨-, ⟨s, t, hd, -, hs⟩, -⟩ | ⟨-, p, s, t, hd, hend⟩⟩ := hw
  · refine ⟨x.disk, x.final, _, s, t, h.disk, h.onDisk hd,
      Or.inr ⟨Or.inl h.final, Or.inr ⟨landed, x.readable, hl, by rw [hpre]⟩, ?_⟩⟩
    rcases hs with ⟨hs, -⟩ | ⟨readable, rfl⟩
    · exact h.side_cases hs
    · refine Or.inr (Or.inr ⟨b, readable, ?_⟩)
      rw [h.sameCodec, h.sidecar]
      rfl
  · refine ⟨x.disk, x.final, p, s, t, h.disk, h.onDisk hd, Or.inr ⟨Or.inl h.final, ?_, ?_⟩⟩
    · rcases hend with ⟨rfl, -, -⟩ | ⟨rfl | rfl, -, -⟩
      · exact Or.inl rfl
      · exact Or.inl rfl
      · exact Or.inr ⟨landed, x.readable, hl, by rw [hpre]⟩
    · rcases hend with ⟨-, rfl, -⟩ | ⟨-, hs, -⟩
      · exact Or.inr (Or.inl rfl)
      · exact h.side_cases hs

/-- Whatever a write meets, that is all it leaves. -/
theorem write_leaves (hpath : request.path.segments ≠ []) :
    Triple (fun s => s = w) (LocalEndpoint.write vol env codec peer request input)
      (Post.always fun s => Leaves vol codec peer request input w.tree s.tree) := by
  refine (write_triple hpath).weaken (fun _ h => h) ⟨?_, ?_, ?_⟩
  · intro u s h
    obtain ⟨x, hopened, hcomplete, hw⟩ := h
    exact hopened.committed_leaves hcomplete hw
  · intro e s h
    rcases h with h | ⟨x, hopened, hw⟩
    · exact h.leaves
    · exact hopened.refused_leaves hw
  · intro s h
    rcases h with h | ⟨x, hopened, hw | ⟨hcomplete, hw⟩⟩
    · exact h.leaves
    · exact hopened.interrupted_leaves hw
    · exact hopened.committed_leaves hcomplete hw

end Leaving

end MtpxCore
