import Mathlib
import Manticore.Doclist
/-!
# Hitlist — the bytes of a hitlist, and reading them back

`deltaBytes` are the bytes of the hits of a document, each as the difference to the hit before.
-/
namespace Manticore
namespace Disk

open Hitman
open Zip (zipBE)
open List

def deltaBytes : Nat → List Nat → List UInt8
  | _, [] => []
  | prev, e :: es => zipBE (sub32 e prev) ++ deltaBytes e es

/-- A whole hitlist of a document. -/
def hitlistBytes (es : List Nat) : List UInt8 := deltaBytes EMPTY_HIT es ++ zipBE 0

/-- Hits that a reader tells from the end of the list: ascending, none of them empty. -/
def Readable : Nat → List Nat → Prop
  | _, [] => True
  | prev, e :: es => prev < e ∧ e < 2 ^ 32 ∧ Readable e es

theorem readHits_rest (bs : List UInt8) : ∀ (es : List Nat) (k : Nat) (q : Qword), es.length < k →
    q.hitState = 0 → Readable q.hitPos es → q.rdHitlist.rest = deltaBytes q.hitPos es ++ zipBE 0 ++ bs →
    ∃ q', q.readHits k = some (es, q') ∧ q'.qwordFields = q.qwordFields
  | es, 0, _, hk, _, _, _ => absurd hk (Nat.not_lt_zero _)
  | [], k + 1, q, _, hs, _, hrest => by
    have h1 := Reader.unzipInt_of_rest hrest (by decide)
    rw [Qword.readHits, Qword.getNextHit, hs]
    simp only [h1, ne_eq, not_true_eq_false, if_false, if_true]
    exact ⟨_, rfl, rfl⟩
  | e :: es, k + 1, q, hk, hs, hr, hrest => by
    obtain ⟨hlt, hmax, hr⟩ := hr
    have hsub : sub32 e q.hitPos ≠ 0 ∧ sub32 e q.hitPos < 2 ^ 32 ∧ (q.hitPos + sub32 e q.hitPos) % 2 ^ 32 = e := by
      unfold sub32
      omega
    rw [deltaBytes, append_assoc, append_assoc] at hrest
    have h1 := Reader.unzipInt_of_rest hrest hsub.2.1
    have hrest' := Reader.rest_skip hrest
    rw [← append_assoc] at hrest'
    have hne : e ≠ EMPTY_HIT := by
      unfold EMPTY_HIT
      omega
    obtain ⟨q', hq', hf⟩ := readHits_rest bs es k
      { q with rdHitlist := q.rdHitlist.skip (zipBE (sub32 e q.hitPos)).length, hitPos := e, hitState := 0 }
      (Nat.lt_of_succ_lt_succ hk) rfl hr hrest'
    refine ⟨q', ?_, hf⟩
    rw [Qword.readHits, Qword.getNextHit, hs]
    simp only [h1, ne_eq, hsub.1, not_false_eq_true, if_true, hsub.2.2, hne, if_false, hq', Option.bind_eq_bind,
      Option.bind_some]

/-- **`GetNextHit` reads the hits back** and stops at the end of the list. -/
theorem readHits_deltaBytes (bs : List UInt8) : ∀ (es : List Nat) (k : Nat) (q : Qword), es.length < k →
    q.hitState = 0 → Readable q.hitPos es → q.rdHitlist.rest = deltaBytes q.hitPos es ++ zipBE 0 ++ bs →
    ∃ q', q.readHits k = some (es, q') ∧ q'.qwordFields = q.qwordFields :=
  readHits_rest bs

theorem readHits_twoHits : ∃ q', (setup inlineHits [] (hitlistBytes [5, 9] ++ []) [] ⟨1, false, 0, 0⟩).readHits 3 =
    some ([5, 9], q') ∧ q'.qwordFields = 0 :=
  readHits_deltaBytes [] [5, 9] 3 _ (by decide) rfl ⟨by decide, by decide, by decide, by decide, trivial⟩ rfl

/-- The hits of a stored document: the inlined one, or those at its place in the hitlist. -/
def StoredDoc.HasHits (hitlist : Reader) (d : StoredDoc) (es : List Nat) : Prop :=
  match d.body with
  | .inlined h => es = [h] ∧ EMPTY_HIT < h ∧ h < 2 ^ 32
  | .listed _ _ p => p < 2 ^ 63 ∧ Readable EMPTY_HIT es ∧ ∃ bs, (hitlist.seekTo p).rest = hitlistBytes es ++ bs

variable {q : Qword} {d : StoredDoc} {es : List Nat} {k : Nat}

/-- **From the hitlist position of a document its hits are read**, inlined or not. -/
theorem readHits_seekHitlist (h : d.HasHits q.rdHitlist es) (hk : es.length < k) :
    ∃ q', (q.seekHitlist d.view.hitlistPos).readHits k = some (es, q') ∧ q'.qwordFields = q.qwordFields := by
  obtain ⟨row, body⟩ := d
  cases body with
  | inlined hit =>
    obtain ⟨rfl, hpos, hlt⟩ := h
    obtain ⟨k, rfl⟩ := Nat.exists_eq_add_of_lt hk
    have hne : hit ≠ EMPTY_HIT := Nat.ne_of_gt hpos
    have hmod : (hit + 2 ^ 63) % 2 ^ 32 = hit := by omega
    rw [StoredDoc.view, Qword.seekHitlist, if_pos (Nat.le_add_left ..), hmod, length_singleton, Nat.add_right_comm 1 k 1,
      Nat.add_comm (1 + 1) k, Qword.readHits, Qword.getNextHit]
    simp only [hne, if_false]
    rw [Qword.readHits, Qword.getNextHit]
    exact ⟨_, rfl, rfl⟩
  | listed mask hits p =>
    obtain ⟨hp, hr, bs, hrest⟩ := h
    rw [StoredDoc.view, Qword.seekHitlist, if_neg (Nat.not_le_of_lt hp)]
    exact readHits_rest bs es k _ hk rfl hr hrest

/-- **`CollectHitMask` leaves a mask with the fields of all hits** on top of what the doclist said. -/
theorem collectHitMask_spec (h : d.HasHits q.rdHitlist es) (hq : q.view = d.view) (hk : es.length < k) :
    ∃ q', q.collectHitMask k = some q' ∧ q'.allFieldsKnown = true ∧
      q'.qwordFields = (es.map getField).foldl FieldMask.set (if q.allFieldsKnown then 0 else q.qwordFields) := by
  have hpos : q.hitlistPos = d.view.hitlistPos := congrArg DocView.hitlistPos hq
  have hknown : q.allFieldsKnown = d.view.allFieldsKnown := congrArg DocView.allFieldsKnown hq
  have hfields : q.qwordFields = d.view.qwordFields := congrArg DocView.qwordFields hq
  obtain ⟨q', hread, hsame⟩ := readHits_seekHitlist h hk
  rw [Qword.collectHitMask]
  cases hb : d.body with
  | inlined hit =>
    rw [StoredDoc.HasHits, hb] at h
    rw [StoredDoc.view, hb] at hknown hfields
    obtain ⟨rfl, -⟩ := h
    rw [if_pos hknown, if_pos hknown]
    exact ⟨q, rfl, hknown, hfields⟩
  | listed mask hits p =>
    rw [StoredDoc.view, hb] at hknown
    have hno : ¬ q.allFieldsKnown = true := by
      rw [hknown]
      exact Bool.false_ne_true
    rw [if_neg hno, if_neg hno, hpos, hread, ← hsame]
    exact ⟨_, rfl, rfl, rfl⟩

end Disk
end Manticore
