import SstCompactor.Format.InternalKey

set_option autoImplicit false

namespace SstCompactor

inductive KeepDecision where
  | keep | drop
  deriving DecidableEq, Repr

/-- The trait; a call returns the decision and the strategy after it. -/
class CompactionStrategy (σ : Type) where
  decide : σ → InternalKey → Bool → KeepDecision × σ

structure BottommostStrategy where
  deriving DecidableEq, Repr

instance : CompactionStrategy BottommostStrategy where
  decide s ik isFirstForKey :=
    if !isFirstForKey then (.drop,s)
    else if ik.valueType.isTombstone then (.drop,s)
    else (.keep,s)

structure SnapshotAwareStrategy where
  snapshotSeqno : Nat
  keptVisibleVersionForCurrentKey : Bool
  deriving DecidableEq, Repr

def SnapshotAwareStrategy.new (snapshotSeqno : Nat) : SnapshotAwareStrategy :=
  ⟨snapshotSeqno,false⟩

instance : CompactionStrategy SnapshotAwareStrategy where
  decide s ik isFirstForKey :=
    let s := if isFirstForKey then { s with keptVisibleVersionForCurrentKey := false } else s
    if isFirstForKey then
      if ik.sequence ≤ s.snapshotSeqno then
        (.keep,{ s with keptVisibleVersionForCurrentKey := true })
      else (.keep,s)
    else if s.keptVisibleVersionForCurrentKey then (.drop,s)
    else if ik.sequence ≤ s.snapshotSeqno then
      (.keep,{ s with keptVisibleVersionForCurrentKey := true })
    else (.drop,s)

structure PassthroughStrategy where
  deriving DecidableEq, Repr

instance : CompactionStrategy PassthroughStrategy where
  decide s _ _ := (.keep,s)

section
variable {σ : Type} [CompactionStrategy σ]

def decideAll (s : σ) : List (InternalKey × Bool) → List KeepDecision × σ
  | [] => ([],s)
  | (ik,isFirstForKey) :: calls =>
    let (d,s) := CompactionStrategy.decide s ik isFirstForKey
    let (ds,s) := decideAll s calls
    (d :: ds,s)

end

end SstCompactor
