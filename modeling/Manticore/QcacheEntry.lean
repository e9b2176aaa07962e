import Manticore.FileIo
/-!
# QcacheEntry — the compressed matches of a cached query (`QcacheEntry_c`, `QcacheRanker_c` in `sphinxqcache.cpp`)

A cached query keeps its matches in frames of 32, each match as the distance from the row before it and a weight, both in
as many bytes as the widest of the frame needs; a complete frame may keep places in a table of weights instead of weights.
A reset of the ranker restarts the distances.  `decode_record` says that decoding gives back what was appended.
-/
namespace Manticore
namespace Qcache
open List

/-- `QcacheMatch_t`. -/
structure Match where
  rowid  : BitVec 32
  weight : BitVec 32
  deriving DecidableEq, Repr

/-- `INVALID_ROWID`. -/
def invalidRowid : BitVec 32 := BitVec.allOnes 32

def maxFrameSize : Nat := 32

/-- `QcacheEntry_c` while it is built. -/
structure Entry where
  data      : List UInt8 := []
  frame     : List Match := []
  weights   : List (BitVec 32) := []
  lastRowid : BitVec 32 := invalidRowid

/-! ## Encoding -/

def numBytes (v : Nat) : Nat := if v = 0 then 0 else numBytes (v / 256) + 1
termination_by v
decreasing_by omega

/-- The widest of the values, one byte at least. -/
def maxBytes (vs : List Nat) : Nat := vs.foldl (fun n v => max n (numBytes v)) 1

/-- The distances between the rows of a frame. -/
def deltas (last : BitVec 32) : List Match → List Nat
  | []      => []
  | m :: ms => (m.rowid - last - 1).toNat :: deltas m.rowid ms

def putFrame (deltaBytes weightBytes : Nat) (last : BitVec 32) : List Match → List UInt8
  | []      => []
  | m :: ms => putLE deltaBytes (m.rowid - last - 1).toNat ++ putLE weightBytes m.weight.toNat
      ++ putFrame deltaBytes weightBytes m.rowid ms

/-- `m_hWeights.FindOrAdd`: the place of a weight, which is added when it is new. -/
def findOrAdd (weights : List (BitVec 32)) (w : BitVec 32) : Nat × List (BitVec 32) :=
  if w ∈ weights then (weights.idxOf w, weights) else (weights.length, weights ++ [w])

def indexWeights (weights : List (BitVec 32)) : List Match → List Match × List (BitVec 32)
  | []      => ([], weights)
  | m :: ms =>
    let found := findOrAdd weights m.weight
    let rest := indexWeights found.2 ms
    (⟨m.rowid, BitVec.ofNat 32 found.1⟩ :: rest.1, rest.2)

/-- The marker byte `00iwwddd`. -/
def marker (indexed : Bool) (weightBytes deltaBytes : Nat) : UInt8 :=
  UInt8.ofNat ((if indexed then 32 else 0) + (weightBytes - 1) * 8 + (deltaBytes - 1))

namespace Entry

/-- The first half of `FlushFrame`: marker bytes `100wwddd 000lllll` and the pairs. -/
def flushIncomplete (e : Entry) : Entry :=
  let deltaBytes := maxBytes (deltas e.lastRowid e.frame)
  let weightBytes := maxBytes (e.frame.map fun m => m.weight.toNat)
  { e with
    data := e.data ++ ((0x80 + marker false weightBytes deltaBytes) :: UInt8.ofNat e.frame.length ::
      putFrame deltaBytes weightBytes e.lastRowid e.frame)
    frame := [] }

/-- The second half of `FlushFrame`. -/
def flushComplete (e : Entry) : Entry :=
  let indexed : Bool := e.weights.length + maxFrameSize ≤ 0xffff
  let stored := if indexed then indexWeights e.weights e.frame else (e.frame, e.weights)
  let deltaBytes := maxBytes (deltas e.lastRowid e.frame)
  let weightBytes := maxBytes (stored.1.map fun m => m.weight.toNat)
  { data := e.data ++ (marker indexed weightBytes deltaBytes :: putFrame deltaBytes weightBytes e.lastRowid stored.1)
    frame := []
    weights := stored.2
    lastRowid := (e.frame.map Match.rowid).getLastD e.lastRowid }

def flushFrame (e : Entry) : Entry :=
  if e.frame = [] then e
  else if e.frame.length < maxFrameSize then e.flushIncomplete
  else e.flushComplete

def append (e : Entry) (m : Match) : Entry :=
  let e' := { e with frame := e.frame ++ [m] }
  if e'.frame.length = maxFrameSize then e'.flushFrame else e'

def rankerReset (e : Entry) : Entry := { e.flushFrame with data := e.flushFrame.data ++ [0x40], lastRowid := invalidRowid }

/-- `Finish`. -/
def finish (e : Entry) : Entry := e.flushFrame

end Entry

/-! ## Decoding -/

def readFrame (weights : List (BitVec 32)) (indexed : Bool) (deltaBytes weightBytes : Nat) :
    Nat → List UInt8 → BitVec 32 → List Match × BitVec 32
  | 0,     _,  last => ([], last)
  | n + 1, bs, last =>
    let row := last + (BitVec.ofNat 32 (valLE (bs.take deltaBytes)) + 1)
    let w := BitVec.ofNat 32 (valLE ((bs.drop deltaBytes).take weightBytes))
    let rest := readFrame weights indexed deltaBytes weightBytes n (bs.drop (deltaBytes + weightBytes)) row
    (⟨row, if indexed then weights.getD w.toNat 0 else w⟩ :: rest.1, rest.2)

/-- `QcacheRanker_c` between two calls: the bytes from `m_pCur` on, and `m_uLastId`. -/
structure Ranker where
  cur    : List UInt8
  lastId : BitVec 32

/-- A turn of the loop of `GetMatches`: the matches of the next frame, none for a restart; `none` at the end of the data, and
at a frame that goes past it. -/
def turn (weights : List (BitVec 32)) (r : Ranker) : Option (List Match × Ranker) :=
  match r.cur with
  | [] => none
  | b :: bs =>
    if b = 0x40 then some ([], ⟨bs, invalidRowid⟩)
    else
      let weightBytes := 1 + (b.toNat / 8) % 4
      let deltaBytes := 1 + b.toNat % 8
      let short : Bool := 128 ≤ b.toNat
      let matches' := if short then (bs.headD 0).toNat else maxFrameSize
      let indexed : Bool := !short && decide (b.toNat / 32 % 2 = 1)
      let body := if short then bs.drop 1 else bs
      if body.length < matches' * (deltaBytes + weightBytes) then none
      else
        let read := readFrame weights indexed deltaBytes weightBytes matches' body r.lastId
        some (read.1, ⟨body.drop (matches' * (deltaBytes + weightBytes)), read.2⟩)

theorem turn_lt {weights : List (BitVec 32)} {r r' : Ranker} {ms : List Match} (h : turn weights r = some (ms, r')) :
    r'.cur.length < r.cur.length := by
  obtain ⟨cur, last⟩ := r
  cases cur with
  | nil => cases h
  | cons b bs =>
    unfold turn at h
    dsimp only at h
    have hbody : (if decide (128 ≤ b.toNat) = true then bs.drop 1 else bs).length ≤ bs.length := by
      split <;> simp
    generalize (if decide (128 ≤ b.toNat) = true then bs.drop 1 else bs) = body at h hbody
    generalize (if decide (128 ≤ b.toNat) = true then (bs.headD 0).toNat else maxFrameSize) = count at h
    split_ifs at h
    · cases h
      exact Nat.lt_succ_self _
    · cases h
      rw [length_drop, length_cons]
      omega

/-- All matches that the calls of `QcacheRanker_c::GetMatches` decode, before they are filtered again. -/
def decode (weights : List (BitVec 32)) (cur : List UInt8) (last : BitVec 32) : List Match :=
  match _h : turn weights ⟨cur, last⟩ with
  | none => []
  | some (ms, r) => ms ++ decode weights r.cur r.lastId
termination_by cur.length
decreasing_by exact turn_lt _h

section
variable {weights : List (BitVec 32)} {cur : List UInt8} {last : BitVec 32}

theorem decode_none (h : turn weights ⟨cur, last⟩ = none) : decode weights cur last = [] := by
  rw [decode]
  split
  · rfl
  · rename_i heq
    rw [h] at heq
    cases heq

theorem decode_some {ms : List Match} {r : Ranker} (h : turn weights ⟨cur, last⟩ = some (ms, r)) :
    decode weights cur last = ms ++ decode weights r.cur r.lastId := by
  rw [decode]
  split
  · rename_i heq
    rw [h] at heq
    cases heq
  · rename_i heq
    rw [h] at heq
    cases heq
    rfl

@[simp] theorem decode_nil : decode weights [] last = [] := decode_none rfl

end

/-! ## Widths -/

theorem lt_numBytes (v : Nat) : v < 256 ^ numBytes v := by
  induction v using Nat.strongRecOn with
  | _ v ih =>
    rw [numBytes]
    split
    · rename_i h
      rw [h]
      exact Nat.one_pos
    · have := ih (v / 256) (by omega)
      omega

theorem foldl_maxBytes (vs : List Nat) : ∀ n, n ≤ vs.foldl (fun n v => max n (numBytes v)) n := by
  induction vs with
  | nil => exact fun n => le_refl n
  | cons v vs ih => exact fun n => le_trans (le_max_left _ _) (ih _)

theorem one_le_maxBytes (vs : List Nat) : 1 ≤ maxBytes vs := foldl_maxBytes vs 1

theorem numBytes_le_foldl (vs : List Nat) : ∀ n, ∀ v ∈ vs, numBytes v ≤ vs.foldl (fun n v => max n (numBytes v)) n := by
  induction vs with
  | nil => intro n v hv; cases hv
  | cons u vs ih =>
    intro n v hv
    rcases mem_cons.mp hv with rfl | hv
    · exact le_trans (le_max_right _ _) (foldl_maxBytes vs _)
    · exact ih _ v hv

theorem lt_maxBytes (vs : List Nat) {v : Nat} (hv : v ∈ vs) : v < 256 ^ maxBytes vs :=
  lt_of_lt_of_le (lt_numBytes v) (Nat.pow_le_pow_right (by decide) (numBytes_le_foldl vs 1 v hv))

theorem numBytes_le (k : Nat) : ∀ v, v < 256 ^ k → numBytes v ≤ k := by
  induction k with
  | zero =>
    intro v hv
    have : v = 0 := by simpa using hv
    rw [numBytes, if_pos this]
  | succ k ih =>
    intro v hv
    rw [numBytes]
    split
    · exact Nat.zero_le _
    · exact Nat.succ_le_succ (ih _ (by omega))

theorem maxBytes_le {vs : List Nat} (h : ∀ v ∈ vs, v < 2 ^ 32) : maxBytes vs ≤ 4 := by
  have main : ∀ n, n ≤ 4 → vs.foldl (fun n v => max n (numBytes v)) n ≤ 4 := by
    induction vs with
    | nil => exact fun n hn => hn
    | cons v vs ih =>
      intro n hn
      have hv := h v (mem_cons_self ..)
      exact ih (forall_mem_cons.mp h).2 _ (max_le hn (numBytes_le 4 v hv))
  exact main 1 (by decide)

/-- **A marker byte gives back what it was made of.** -/
theorem marker_bits (indexed : Bool) {weightBytes deltaBytes : Nat} (hw : 1 ≤ weightBytes) (hw' : weightBytes ≤ 4)
    (hd : 1 ≤ deltaBytes) (hd' : deltaBytes ≤ 4) :
    (marker indexed weightBytes deltaBytes).toNat
      = (if indexed then 32 else 0) + (weightBytes - 1) * 8 + (deltaBytes - 1) := by
  rw [marker, UInt8.toNat_ofNat']
  cases indexed <;> simp <;> omega

/-! ## One frame -/

/-- What a stored match stands for: an indexed weight is a place in the table. -/
def stands (weights : List (BitVec 32)) (indexed : Bool) (m : Match) : Match :=
  ⟨m.rowid, if indexed then weights.getD m.weight.toNat 0 else m.weight⟩

theorem map_stands_false (weights : List (BitVec 32)) (ms : List Match) : ms.map (stands weights false) = ms := by
  have h : stands weights false = id := rfl
  rw [h, map_id]

@[simp] theorem length_putFrame (deltaBytes weightBytes : Nat) (last : BitVec 32) (ms : List Match) :
    (putFrame deltaBytes weightBytes last ms).length = ms.length * (deltaBytes + weightBytes) := by
  induction ms generalizing last with
  | nil => simp [putFrame]
  | cons m ms ih =>
    simp only [putFrame, length_append, length_putLE, ih, length_cons]
    ring

theorem rowid_of_delta (last row : BitVec 32) : last + (row - last - 1 + 1) = row := by
  rw [BitVec.sub_add_cancel, BitVec.add_comm, BitVec.sub_add_cancel]

theorem readFrame_putFrame (weights : List (BitVec 32)) (indexed : Bool) (deltaBytes weightBytes : Nat)
    (rest : List UInt8) (ms : List Match) : ∀ (last : BitVec 32),
    (∀ d ∈ deltas last ms, d < 256 ^ deltaBytes) → (∀ m ∈ ms, m.weight.toNat < 256 ^ weightBytes) →
    readFrame weights indexed deltaBytes weightBytes ms.length (putFrame deltaBytes weightBytes last ms ++ rest) last
      = (ms.map (stands weights indexed), (ms.map Match.rowid).getLastD last) := by
  induction ms with
  | nil => exact fun last _ _ => rfl
  | cons m ms ih =>
    intro last hd hw
    have hdelta : (m.rowid - last - 1).toNat % 256 ^ deltaBytes = (m.rowid - last - 1).toNat :=
      Nat.mod_eq_of_lt (hd _ (mem_cons_self ..))
    have hweight : m.weight.toNat % 256 ^ weightBytes = m.weight.toNat :=
      Nat.mod_eq_of_lt (hw m (mem_cons_self ..))
    have hrest := ih m.rowid (forall_mem_cons.mp hd).2 (forall_mem_cons.mp hw).2
    have htake : (putFrame deltaBytes weightBytes last (m :: ms) ++ rest).take deltaBytes
        = putLE deltaBytes (m.rowid - last - 1).toNat := by
      simp only [putFrame, append_assoc]
      rw [take_append_of_le_length (by simp), take_of_length_le (by simp)]
    have hdrop : (putFrame deltaBytes weightBytes last (m :: ms) ++ rest).drop deltaBytes
        = putLE weightBytes m.weight.toNat ++ (putFrame deltaBytes weightBytes m.rowid ms ++ rest) := by
      simp only [putFrame, append_assoc]
      rw [drop_append_of_le_length (by simp), drop_of_length_le (by simp), nil_append]
    have hnext : (putFrame deltaBytes weightBytes last (m :: ms) ++ rest).drop (deltaBytes + weightBytes)
        = putFrame deltaBytes weightBytes m.rowid ms ++ rest := by
      rw [← drop_drop, hdrop, drop_append_of_le_length (by simp), drop_of_length_le (by simp),
        nil_append]
    simp only [length_cons, readFrame]
    rw [hnext, htake, hdrop, take_append_of_le_length (by simp), take_of_length_le (by simp), valLE_putLE,
      valLE_putLE, hdelta, hweight, BitVec.ofNat_toNat, BitVec.ofNat_toNat, BitVec.setWidth_eq, BitVec.setWidth_eq,
      rowid_of_delta, hrest]
    rw [map_cons, map_cons, getLastD_cons]
    rfl

theorem deltas_lt (last : BitVec 32) (ms : List Match) : ∀ d ∈ deltas last ms, d < 2 ^ 32 := by
  induction ms generalizing last with
  | nil => intro d hd; cases hd
  | cons m ms ih =>
    intro d hd
    rcases mem_cons.mp hd with rfl | hd
    · exact BitVec.isLt _
    · exact ih _ d hd

theorem weights_lt (ms : List Match) : ∀ w ∈ ms.map (fun m => m.weight.toNat), w < 2 ^ 32 := by
  intro w hw
  obtain ⟨m, _, rfl⟩ := mem_map.mp hw
  exact BitVec.isLt _

variable {ms : List Match}

theorem deltas_congr {ms' : List Match} (h : ms.map Match.rowid = ms'.map Match.rowid) (last : BitVec 32) :
    deltas last ms = deltas last ms' := by
  induction ms generalizing ms' last with
  | nil =>
    cases ms' with
    | nil => rfl
    | cons m' ms' => cases h
  | cons m ms ih =>
    cases ms' with
    | nil => cases h
    | cons m' ms' =>
      simp only [map_cons, List.cons.injEq] at h
      simp only [deltas, h.1, ih h.2]

section
variable (weights : List (BitVec 32))
include weights

theorem decode_restart (rest : List UInt8) (last : BitVec 32) :
    decode weights (0x40 :: rest) last = decode weights rest invalidRowid := by
  have h : turn weights ⟨0x40 :: rest, last⟩ = some ([], ⟨rest, invalidRowid⟩) := rfl
  rw [decode_some h, nil_append]

/-- A frame whose marker byte has `top` above the two widths: 128 for an incomplete frame, 32 for indexed weights. -/
theorem decode_frame (top : Nat) (htop : top = 0 ∨ top = 32 ∨ top = 128) (last : BitVec 32) (ms : List Match) {b : UInt8}
    {bs rest : List UInt8}
    (hb : b.toNat = top + (maxBytes (ms.map fun m => m.weight.toNat) - 1) * 8 + (maxBytes (deltas last ms) - 1))
    (hcount : (if top = 128 then (bs.headD 0).toNat else maxFrameSize) = ms.length)
    (hbody : (if top = 128 then bs.drop 1 else bs) =
      putFrame (maxBytes (deltas last ms)) (maxBytes (ms.map fun m => m.weight.toNat)) last ms ++ rest) :
    decode weights (b :: bs) last
      = ms.map (stands weights (decide (top = 32))) ++ decode weights rest ((ms.map Match.rowid).getLastD last) := by
  have hread := readFrame_putFrame weights (decide (top = 32)) _ _ rest ms last (fun d hd => lt_maxBytes _ hd)
    (fun m hm => lt_maxBytes (ms.map fun m => m.weight.toNat) (mem_map.mpr ⟨m, hm, rfl⟩))
  have hd := one_le_maxBytes (deltas last ms)
  have hd' := maxBytes_le (deltas_lt last ms)
  have hw := one_le_maxBytes (ms.map fun m => m.weight.toNat)
  have hw' := maxBytes_le (weights_lt ms)
  generalize maxBytes (deltas last ms) = deltaBytes at *
  generalize maxBytes (ms.map fun m => m.weight.toNat) = weightBytes at *
  have hne : b ≠ 0x40 := by
    rintro rfl
    simp at hb
    omega
  have h1 : 1 + b.toNat / 8 % 4 = weightBytes := by omega
  have h2 : 1 + b.toNat % 8 = deltaBytes := by omega
  have h3 : 128 ≤ b.toNat ↔ top = 128 := by omega
  have h4 : (!decide (top = 128) && decide (b.toNat / 32 % 2 = 1)) = decide (top = 32) := by
    rcases htop with rfl | rfl | rfl <;> simp <;> omega
  refine decode_some (r := ⟨rest, (ms.map Match.rowid).getLastD last⟩) ?_
  unfold turn
  dsimp only
  rw [if_neg hne]
  simp only [h1, h2, h3, h4, decide_eq_true_eq, hcount, hbody]
  rw [if_neg (by simp), hread, drop_append_of_le_length (by simp), drop_of_length_le (by simp), nil_append]

/-- **Decoding an incomplete frame gives its matches.** -/
theorem decode_incomplete (last : BitVec 32) (ms : List Match)
    (hlen : ms.length < maxFrameSize) (rest : List UInt8) :
    decode weights ((0x80 + marker false (maxBytes (ms.map fun m => m.weight.toNat)) (maxBytes (deltas last ms))) ::
      UInt8.ofNat ms.length ::
        (putFrame (maxBytes (deltas last ms)) (maxBytes (ms.map fun m => m.weight.toNat)) last ms ++ rest)) last
      = ms ++ decode weights rest ((ms.map Match.rowid).getLastD last) := by
  have hmark := marker_bits false (one_le_maxBytes (ms.map fun m => m.weight.toNat)) (maxBytes_le (weights_lt ms))
    (one_le_maxBytes (deltas last ms)) (maxBytes_le (deltas_lt last ms))
  refine (decode_frame weights 128 (.inr (.inr rfl)) last ms ?_ ?_ rfl).trans (congrArg (· ++ _) (map_stands_false weights ms))
  · rw [UInt8.toNat_add, hmark]
    simp
    have := maxBytes_le (weights_lt ms)
    have := maxBytes_le (deltas_lt last ms)
    omega
  · rw [if_pos rfl, headD_cons, UInt8.toNat_ofNat']
    unfold maxFrameSize at hlen
    omega

/-- **Decoding a complete frame gives what its stored matches stand for.** -/
theorem decode_complete (indexed : Bool) (last : BitVec 32) (ms : List Match)
    (hlen : ms.length = maxFrameSize) (rest : List UInt8) :
    decode weights (marker indexed (maxBytes (ms.map fun m => m.weight.toNat)) (maxBytes (deltas last ms)) ::
        (putFrame (maxBytes (deltas last ms)) (maxBytes (ms.map fun m => m.weight.toNat)) last ms ++ rest)) last
      = ms.map (stands weights indexed) ++ decode weights rest ((ms.map Match.rowid).getLastD last) := by
  have hmark := marker_bits indexed (one_le_maxBytes (ms.map fun m => m.weight.toNat)) (maxBytes_le (weights_lt ms))
    (one_le_maxBytes (deltas last ms)) (maxBytes_le (deltas_lt last ms))
  cases indexed with
  | false => exact decode_frame weights 0 (.inl rfl) last ms hmark hlen.symm rfl
  | true => exact decode_frame weights 32 (.inr (.inl rfl)) last ms hmark hlen.symm rfl

/-! ## The table of weights -/

theorem findOrAdd_spec (w : BitVec 32) :
    weights <+: (findOrAdd weights w).2 ∧ (findOrAdd weights w).2[(findOrAdd weights w).1]? = some w
      ∧ (findOrAdd weights w).2.length ≤ weights.length + 1 := by
  unfold findOrAdd
  by_cases h : w ∈ weights
  · rw [if_pos h]
    exact ⟨prefix_refl _, getElem?_idxOf h, Nat.le_succ _⟩
  · rw [if_neg h]
    exact ⟨prefix_append _ _, by simp, by simp⟩

end

theorem getElem?_of_prefix {α : Type} {l l' : List α} (h : l <+: l') {i : Nat} {a : α} (hi : l[i]? = some a) :
    l'[i]? = some a := by
  obtain ⟨t, rfl⟩ := h
  exact getElem?_append_left (List.getElem?_eq_some_iff.mp hi).1 ▸ hi

/-- **Replacing weights by places loses nothing**, for the table of that moment and every later one. -/
theorem indexWeights_spec (ms : List Match) : ∀ (weights : List (BitVec 32)), weights.length + ms.length ≤ 2 ^ 32 →
    weights <+: (indexWeights weights ms).2 ∧ (indexWeights weights ms).1.map Match.rowid = ms.map Match.rowid ∧
      ∀ later, (indexWeights weights ms).2 <+: later → (indexWeights weights ms).1.map (stands later true) = ms := by
  induction ms with
  | nil =>
    intro weights _
    exact ⟨prefix_refl _, rfl, fun _ _ => rfl⟩
  | cons m ms ih =>
    intro weights hlen
    rw [length_cons] at hlen
    obtain ⟨hgrows, hat, hlong⟩ := findOrAdd_spec weights m.weight
    obtain ⟨hgrows', hrows, hstands⟩ := ih (findOrAdd weights m.weight).2 (by omega)
    refine ⟨hgrows.trans hgrows', by simp [indexWeights, hrows], ?_⟩
    intro later hlater
    have hbound := (List.getElem?_eq_some_iff.mp hat).1
    have hplace : (BitVec.ofNat 32 (findOrAdd weights m.weight).1).toNat = (findOrAdd weights m.weight).1 := by
      rw [BitVec.toNat_ofNat, Nat.mod_eq_of_lt (by omega)]
    have hm : later.getD (findOrAdd weights m.weight).1 0 = m.weight := by
      rw [getD_eq_getElem?_getD, getElem?_of_prefix (hgrows'.trans hlater) hat, Option.getD_some]
    simp only [indexWeights, map_cons, hstands later hlater, stands, hplace, hm, if_true]

/-! ## The whole entry -/

namespace Entry

/-- What was appended so far: what the frames decode to, whatever is stored after them and with any later table of weights,
and the matches of the open frame. -/
def Holds (e : Entry) (ms : List Match) : Prop :=
  ∃ done, ms = done ++ e.frame ∧ e.frame.length < maxFrameSize ∧ ∀ later, e.weights <+: later → ∀ rest,
    decode later (e.data ++ rest) invalidRowid = done ++ decode later rest e.lastRowid

theorem holds_empty : Holds {} [] := ⟨[], rfl, by decide, fun _ _ _ => rfl⟩

variable {e : Entry}

/-- `FlushFrame` on an incomplete frame leaves the last row as it was, which no frame after it may rely on. -/
theorem decode_flushFrame {done : List Match} (hlen : e.frame.length < maxFrameSize)
    (hdone : ∀ later, e.weights <+: later → ∀ rest,
      decode later (e.data ++ rest) invalidRowid = done ++ decode later rest e.lastRowid) :
    e.flushFrame.weights = e.weights ∧ e.flushFrame.frame = [] ∧ ∃ last, ∀ later, e.weights <+: later → ∀ rest,
      decode later (e.flushFrame.data ++ rest) invalidRowid = done ++ e.frame ++ decode later rest last := by
  unfold flushFrame
  by_cases hnil : e.frame = []
  · rw [if_pos hnil]
    refine ⟨rfl, hnil, e.lastRowid, ?_⟩
    intro later hlater rest
    rw [hdone later hlater rest, hnil, append_nil]
  · rw [if_neg hnil, if_pos hlen]
    refine ⟨rfl, rfl, (e.frame.map Match.rowid).getLastD e.lastRowid, ?_⟩
    intro later hlater rest
    simp only [flushIncomplete]
    rw [append_assoc, hdone later hlater, cons_append, cons_append,
      decode_incomplete later e.lastRowid e.frame hlen rest, append_assoc]

theorem decode_flushComplete {done : List Match} (hlen : e.frame.length = maxFrameSize)
    (hdone : ∀ later, e.weights <+: later → ∀ rest,
      decode later (e.data ++ rest) invalidRowid = done ++ decode later rest e.lastRowid) :
    ∀ later, e.flushComplete.weights <+: later → ∀ rest, decode later (e.flushComplete.data ++ rest) invalidRowid
      = done ++ e.frame ++ decode later rest e.flushComplete.lastRowid := by
  intro later hlater rest
  unfold flushComplete at hlater ⊢
  by_cases hindexed : e.weights.length + maxFrameSize ≤ 0xffff
  · obtain ⟨hgrows, hrows, hstands⟩ := indexWeights_spec e.frame e.weights (by omega)
    simp only [hindexed, decide_true, if_true] at hlater ⊢
    have hcount : (indexWeights e.weights e.frame).1.length = maxFrameSize := by
      rw [← hlen]
      simpa using congrArg List.length hrows
    rw [append_assoc, hdone later (hgrows.trans hlater), cons_append, ← deltas_congr hrows,
      decode_complete later true e.lastRowid _ hcount, hstands later hlater, hrows, append_assoc]
  · simp only [hindexed, decide_false, Bool.false_eq_true, if_false] at hlater ⊢
    rw [append_assoc, hdone later hlater, cons_append, decode_complete later false e.lastRowid _ hlen,
      map_stands_false, append_assoc]

theorem holds_append (h : e.Holds ms) (m : Match) : (e.append m).Holds (ms ++ [m]) := by
  obtain ⟨done, rfl, hlen, hdone⟩ := h
  unfold append
  by_cases hfull : (e.frame ++ [m]).length = maxFrameSize
  · simp only [hfull, if_true]
    have hne : e.frame ++ [m] ≠ [] := by simp
    have hflush : ({ e with frame := e.frame ++ [m] } : Entry).flushFrame
        = ({ e with frame := e.frame ++ [m] } : Entry).flushComplete := by
      unfold flushFrame
      rw [if_neg hne, if_neg (by simp only [hfull]; exact lt_irrefl _)]
    rw [hflush]
    refine ⟨done ++ (e.frame ++ [m]), ?_, by simp [flushComplete, maxFrameSize], ?_⟩
    · simp [flushComplete]
    · exact decode_flushComplete (e := { e with frame := e.frame ++ [m] }) hfull hdone
  · simp only [hfull, if_false]
    refine ⟨done, by simp, ?_, hdone⟩
    rw [length_append, length_singleton] at hfull ⊢
    omega

theorem holds_rankerReset (h : e.Holds ms) : e.rankerReset.Holds ms := by
  obtain ⟨done, rfl, hlen, hdone⟩ := h
  obtain ⟨hweights, hframe, last, hdecode⟩ := decode_flushFrame hlen hdone
  refine ⟨done ++ e.frame, by simp [rankerReset, hframe], by simp [rankerReset, hframe, maxFrameSize], ?_⟩
  intro later hlater rest
  simp only [rankerReset, hweights] at hlater ⊢
  rw [append_assoc, hdecode later hlater, singleton_append, decode_restart]

theorem decode_finish (h : e.Holds ms) : decode e.finish.weights e.finish.data invalidRowid = ms := by
  obtain ⟨done, rfl, hlen, hdone⟩ := h
  obtain ⟨hweights, -, last, hdecode⟩ := decode_flushFrame hlen hdone
  have := hdecode e.finish.weights (by rw [finish, hweights]) []
  rw [append_nil, decode_nil, append_nil] at this
  exact this

end Entry

/-- What a ranker does to the entry: a chunk of matches, or a reset. -/
inductive Update
  | reset
  | chunk (ms : List Match)

/-- The matches that go into the entry. -/
def Update.matches' : Update → List Match
  | reset => []
  | chunk ms => ms

/-- `UpdateQcache` and `RankerReset`. -/
def Entry.update (e : Entry) : Update → Entry
  | .reset => e.rankerReset
  | .chunk ms => ms.foldl Entry.append e

/-- The entry of a whole run. -/
def record (us : List Update) : Entry := (us.foldl Entry.update {}).finish

theorem holds_appends (new : List Match) : ∀ {e : Entry} {ms : List Match}, e.Holds ms →
    (new.foldl Entry.append e).Holds (ms ++ new) := by
  induction new with
  | nil => intro e ms h; rwa [append_nil]
  | cons m new ih =>
    intro e ms h
    have := ih (Entry.holds_append h m)
    rwa [append_assoc] at this

theorem holds_update {e : Entry} (h : e.Holds ms) (u : Update) :
    (e.update u).Holds (ms ++ u.matches') := by
  cases u with
  | reset =>
    rw [Update.matches', append_nil]
    exact Entry.holds_rankerReset h
  | chunk new => exact holds_appends new h

theorem holds_updates (us : List Update) : ∀ {e : Entry} {ms : List Match}, e.Holds ms →
    (us.foldl Entry.update e).Holds (ms ++ us.flatMap Update.matches') := by
  induction us with
  | nil => intro e ms h; rwa [flatMap_nil, append_nil]
  | cons u us ih =>
    intro e ms h
    have := ih (holds_update h u)
    rwa [append_assoc, ← flatMap_cons] at this

/-- **Decoding an entry gives the matches of the run that recorded it.** -/
theorem decode_record (us : List Update) :
    decode (record us).weights (record us).data invalidRowid = us.flatMap Update.matches' := by
  have := holds_updates us Entry.holds_empty
  exact Entry.decode_finish this

/-! ## The calls of the ranker -/

/-- `QcacheRanker_c::GetMatches`: the matches in its buffer, and the ranker after the call.  It goes on to the next frame
while the filters of the new query have rejected every match. -/
def getMatches (weights : List (BitVec 32)) (earlyReject : Match → Bool) : Nat → Ranker → List Match × Ranker
  | 0,        r => ([], r)
  | fuel + 1, r =>
    match turn weights r with
    | none => ([], { r with cur := [] })
    | some (ms, r') =>
      let kept := ms.filter fun m => !earlyReject m
      if kept = [] then getMatches weights earlyReject fuel r' else (kept, r')

/-- The buffers of `n` calls in a row. -/
def calls (weights : List (BitVec 32)) (earlyReject : Match → Bool) : Nat → Ranker → List (List Match)
  | 0,     _ => []
  | n + 1, r =>
    let got := getMatches weights earlyReject (r.cur.length + 1) r
    got.1 :: calls weights earlyReject n got.2

section Calls
variable (weights : List (BitVec 32)) (earlyReject : Match → Bool)

/-- What the filters of the new query leave of the matches still to be read. -/
def Ranker.left (r : Ranker) : List Match := (decode weights r.cur r.lastId).filter fun m => !earlyReject m

/-- **A call takes the next matches that stay**, and some of them unless none is left. -/
theorem getMatches_spec : ∀ (fuel : Nat) (r : Ranker), r.cur.length < fuel →
    ∃ kept r', getMatches weights earlyReject fuel r = (kept, r') ∧
      r.left weights earlyReject = kept ++ r'.left weights earlyReject ∧ (kept = [] → r'.cur = []) ∧
      (kept ≠ [] → r'.cur.length < r.cur.length)
  | 0, r, hf => absurd hf (Nat.not_lt_zero _)
  | fuel + 1, r, hf => by
    rw [getMatches]
    cases hturn : turn weights r with
    | none =>
      refine ⟨[], { r with cur := [] }, rfl, ?_, fun _ => rfl, fun h => absurd rfl h⟩
      rw [Ranker.left, Ranker.left, decode_none hturn, decode_nil]
      rfl
    | some next =>
      obtain ⟨ms, r'⟩ := next
      have hlt := turn_lt hturn
      have hleft : r.left weights earlyReject = ms.filter (fun m => !earlyReject m) ++ r'.left weights earlyReject := by
        rw [Ranker.left, decode_some hturn, filter_append]
        rfl
      rw [hleft]
      by_cases hnone : ms.filter (fun m => !earlyReject m) = []
      · obtain ⟨kept, r'', hrec, h1, h2, h3⟩ := getMatches_spec fuel r' (by omega)
        exact ⟨kept, r'', by simp only [hnone, if_true, hrec], by rw [hnone, nil_append, h1], h2,
          fun h => lt_trans (h3 h) hlt⟩
      · exact ⟨_, r', by simp only [hnone, if_false], rfl, fun h => absurd h hnone, fun _ => hlt⟩

theorem calls_over (k : Nat) (last : BitVec 32) : calls weights earlyReject k ⟨[], last⟩ = List.replicate k [] := by
  induction k with
  | zero => rfl
  | succ k ih => exact congrArg (List.cons []) ih

/-- **The calls give what stays, each a part of it, and then nothing.** -/
theorem calls_spec : ∀ (n : Nat) (r : Ranker), r.cur.length ≤ n →
    ∃ bufs, bufs.flatten = r.left weights earlyReject ∧ (∀ buf ∈ bufs, buf ≠ []) ∧
      ∀ k, calls weights earlyReject (bufs.length + k) r = bufs ++ List.replicate k []
  | 0, ⟨cur, last⟩, hn => by
    cases length_eq_zero_iff.mp (Nat.le_zero.mp hn)
    refine ⟨[], ?_, forall_mem_nil _, fun k => ?_⟩
    · rw [Ranker.left, decode_nil]
      rfl
    · rw [length_nil, zero_add, calls_over]
      rfl
  | n + 1, r, hn => by
    obtain ⟨kept, r', hgot, hleft, hend, hlt⟩ := getMatches_spec weights earlyReject _ r (Nat.lt_succ_self _)
    by_cases hnone : kept = []
    · have hover : r' = ⟨[], r'.lastId⟩ := by rw [← hend hnone]
      rw [hnone, nil_append, hover, Ranker.left, Ranker.left, decode_nil] at hleft
      refine ⟨[], by rw [Ranker.left, hleft]; rfl, forall_mem_nil _, fun k => ?_⟩
      rw [length_nil, zero_add]
      cases k with
      | zero => rfl
      | succ k =>
        rw [calls, hgot, hnone, hover, calls_over]
        rfl
    · obtain ⟨bufs, hflat, hne, hcalls⟩ := calls_spec n r' (by have := hlt hnone; omega)
      refine ⟨kept :: bufs, by rw [flatten_cons, hflat, hleft], ?_, fun k => ?_⟩
      · intro buf hbuf
        rcases mem_cons.mp hbuf with rfl | hbuf
        · exact hnone
        · exact hne buf hbuf
      · rw [length_cons, add_right_comm, calls, hgot]
        exact congrArg (List.cons kept) (hcalls k)

end Calls

/-- **The calls of `GetMatches` on a recorded entry give the appended matches that the new filters accept, in order**; a call
returns none only when there are no more. -/
theorem calls_record (us : List Update) (earlyReject : Match → Bool) :
    ∃ bufs, bufs.flatten = (us.flatMap Update.matches').filter (fun m => !earlyReject m) ∧ (∀ buf ∈ bufs, buf ≠ []) ∧
      ∀ k, calls (record us).weights earlyReject (bufs.length + k) ⟨(record us).data, invalidRowid⟩
        = bufs ++ List.replicate k [] := by
  obtain ⟨bufs, hflat, hne, hcalls⟩ :=
    calls_spec (record us).weights earlyReject _ ⟨(record us).data, invalidRowid⟩ (le_refl _)
  rw [Ranker.left, decode_record] at hflat
  exact ⟨bufs, hflat, hne, hcalls⟩

end Qcache
end Manticore
