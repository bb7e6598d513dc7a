import FrameNotation.Proofs.Engine.Compressing
import FrameNotation.Proofs.Engine.Key
import FrameNotation.Proofs.Frame.Equality

namespace FrameNotation

open Writer Compression

-- Requests for compressions, the texts of which have hashes that tell them apart.
structure IsPool (pool : Request → Prop) : Prop where
  operation : ∀ request, pool request → request.operation ∈ compressOperations
  hash : ∀ a b text other, pool a → pool b → a.input.writeFrame = .ok text →
    b.input.writeFrame = .ok other → HashedApart text other

-- Frames with equal keys become the same.
def Settings.Separates (settings : Settings) (pool : Request → Prop) : Prop :=
  ∀ a b f g text options, pool a → pool b → a.input = .frame f → b.input = .frame g →
    a.Alike b text options → (settings.compressed f).same (settings.compressed g) = true

-- What notation tells apart: numbers come back as they were.
def Limits.told : Limits where
  number n := n.IsCarried ∧ n.echo = n
  text s := IsStable s.toList
  role := IsPlainRole
  void := True

-- The frames of the pool are told apart by notation, and either enough of each is left after its
-- compression, or none has a null attribute, which notation leaves out.
structure Settings.Tells (settings : Settings) (pool : Request → Prop) : Prop where
  told : ∀ request frame, pool request → request.input = .frame frame → frame.Within .told
  depth : ∀ request frame, pool request → request.input = .frame frame → frame.depth ≤ maxDepth
  nulls : (∀ request frame, pool request → request.input = .frame frame →
      settings.accepts frame = true) ∨
    ∀ request frame, pool request → request.input = .frame frame → frame.pruned = frame

variable {settings : Settings} {pool : Request → Prop} {f g : Frame} {text : Str}

theorem carried_of_told {value : Value} (h : value.Within .told) : value.Within .carried :=
  h.mono (fun _ hnumber => hnumber.1) (fun _ htext => htext) (fun _ hrole => hrole) id

-- Frames with one notation differ by null attributes only.
theorem pruned_eq_of_write (hf : f.Within .told) (hg : g.Within .told)
    (hfdepth : f.depth ≤ maxDepth) (hgdepth : g.depth ≤ maxDepth)
    (hwrite : f.write = .ok text) (hother : g.write = .ok text) :
    f.pruned = g.pruned := by
  have hreread {frame : Frame} (h : frame.Within .told) : frame.reread = frame.pruned := by
    cases frame
    exact Value.frame.inj (rebuilt_congr h fun _ hnumber => hnumber.2)
  obtain ⟨first, hfirst, hread⟩ := Node.exists_read_write (carried_of_told hf) hfdepth
  obtain ⟨second, hsecond, hreadSecond⟩ := Node.exists_read_write (carried_of_told hg) hgdepth
  cases hwrite.symm.trans hfirst
  cases hother.symm.trans hsecond
  rw [hread] at hreadSecond
  rw [← hreread hf, ← hreread hg]
  exact Except.ok.inj hreadSecond

theorem compress_pruned (hwrite : f.write = .ok text) : f.pruned.compress = f.compress := by
  have h := (Node.isWritable_iff.mpr ⟨text, hwrite⟩).compress_rebuilt
  cases f
  exact Value.frame.inj h

theorem isFinite_of_told (n : Number) (h : Limits.told.number n) : n.isFinite = true := by
  cases n with
  | int i => rfl
  | float x => exact h.1
  | nan label => exact h.1

theorem same_compressed (h : f.Within .told) :
    (settings.compressed f).same (settings.compressed f) = true := by
  unfold Settings.compressed
  split_ifs
  · have hlist : IsPlainRole targetListRole := by decide
    have hwithin : (Value.frame f).compress.Within .told :=
      Value.Within.compress h hlist isPlainRole_item
    exact Value.same_self isFinite_of_told hwithin
  · exact Value.same_self isFinite_of_told h

theorem Settings.separates_of_tells (h : settings.Tells pool) : settings.Separates pool := by
  intro a b f g text options ha hb hf hg halike
  have hwrite := halike.left.written
  have hother := halike.right.written
  rw [hf] at hwrite
  rw [hg] at hother
  have hpruned : f.pruned = g.pruned :=
    pruned_eq_of_write (h.told a f ha hf) (h.told b g hb hg) (h.depth a f ha hf) (h.depth b g hb hg)
      hwrite hother
  have heq : settings.compressed f = settings.compressed g := by
    rcases h.nulls with haccepts | hnulls
    · rw [compressed, compressed, if_pos (haccepts a f ha hf), if_pos (haccepts b g hb hg),
        ← compress_pruned hwrite, hpruned, compress_pruned hother]
    · rw [← hnulls a f ha hf, hpruned, hnulls b g hb hg]
  rw [← heq]
  exact same_compressed (h.told a f ha hf)

end FrameNotation
