import Mathlib
import Manticore.Hitpos
/-!
# NWay — the hits of a document run through an automaton (`ExtNWay_T`)

Phrase, proximity and NEAR are one node, `ExtNWay_T<FSM>`: it reads the documents that hold every operand, resets its
automaton before each of them and feeds it the document's hits one by one (`HitFSM`).  A document is returned when one of
its hits makes the automaton add a folded hit to `m_dMyHits`.
-/
namespace Manticore
namespace NWay

/-- `ExtHit_t` -/
structure ExtHit where
  rowID : Nat
  hitpos : Nat
  querypos : Nat
  nodepos : Nat
  spanlen : Nat := 1
  matchlen : Nat := 1
  weight : Nat := 1
  qposMask : Nat := 0
  deriving DecidableEq, Repr, Inhabited

/-- The position of a hit, with its field and without the field-end flag. -/
def ExtHit.pos (h : ExtHit) : Nat := Hitman.getPosWithField h.hitpos

/-- The `ExtHit_t` an automaton adds; it leaves `m_uNodepos` unassigned. -/
structure FoldedHit where
  rowID : Nat
  hitpos : Nat
  querypos : Nat
  spanlen : Nat
  matchlen : Nat
  weight : Nat
  qposMask : Nat
  deriving DecidableEq, Repr

/-- An automaton: `ResetFSM`, and `HitFSM` with the hit it adds when it returns true.  A `none` is the read of a null
pointer. -/
structure Fsm (σ : Type) where
  resetFSM : σ → σ
  hitFSM : σ → ExtHit → Option (σ × Option FoldedHit)

variable {σ : Type}

/-- The hits of one document: the state after the last of them and the hits added. -/
def Fsm.run (M : Fsm σ) : σ → List ExtHit → Option (σ × List FoldedHit)
  | s, [] => some (s, [])
  | s, h :: hs => do
    let (s, added) ← M.hitFSM s h
    let (s, rest) ← M.run s hs
    some (s, added.toList ++ rest)

theorem Fsm.run_cons {M : Fsm σ} {s s' : σ} {h : ExtHit} {added : Option FoldedHit} (hh : M.hitFSM s h = some (s', added))
    (hs : List ExtHit) : M.run s (h :: hs) = (M.run s' hs).map fun r => (r.1, added.toList ++ r.2) := by
  rw [run, hh]
  cases hr : M.run s' hs <;> simp [hr]

theorem Fsm.run_append (M : Fsm σ) : ∀ (hs ks : List ExtHit) (s : σ), M.run s (hs ++ ks) =
    (M.run s hs).bind fun r => (M.run r.1 ks).map fun q => (q.1, r.2 ++ q.2)
  | [], ks, s => by
    cases hk : M.run s ks <;> simp [run, hk]
  | h :: hs, ks, s => by
    cases hh : M.hitFSM s h with
    | none => simp [run, hh]
    | some r =>
      obtain ⟨s', added⟩ := r
      rw [List.cons_append, run_cons hh, run_cons hh, run_append M hs ks s']
      cases M.run s' hs with
      | none => rfl
      | some q => cases hq : M.run q.1 ks <;> simp [hq]

theorem Fsm.run_snoc {M : Fsm σ} {s s' : σ} {hs : List ExtHit} {out : List FoldedHit} (hrun : M.run s hs = some (s', out))
    (h : ExtHit) : M.run s (hs ++ [h]) = (M.hitFSM s' h).map fun r => (r.1, out ++ r.2.toList) := by
  rw [M.run_append, hrun, Option.bind_some]
  cases hh : M.hitFSM s' h <;> simp [run, hh]

end NWay
end Manticore
