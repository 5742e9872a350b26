import Mathlib.Data.List.TakeDrop
import Mathlib.Tactic.Ring

/-!
# Iterated hashes fed piece by piece

A block hash folds a compression function over blocks of fixed length.  A stream
keeps the chaining value and the bytes that do not fill a block yet.  Feeding two
pieces in turn is feeding their concatenation.
-/

namespace Redoubt.Foundation

structure BlockHash (σ : Type) where
  blockLen : Nat
  blockLen_pos : 0 < blockLen
  compress : σ → List UInt8 → σ

namespace BlockHash

variable {σ : Type}

/-- Compress full blocks from the front while there are any. -/
def absorbBlocks (hash : BlockHash σ) : Nat → σ → List UInt8 → σ × List UInt8
  | 0, state, data => (state, data)
  | fuel + 1, state, data =>
      if hash.blockLen ≤ data.length then
        hash.absorbBlocks fuel (hash.compress state (data.take hash.blockLen))
          (data.drop hash.blockLen)
      else (state, data)

/-- Compress all full blocks of a message; the rest is what is left over. -/
def run (hash : BlockHash σ) (state : σ) (data : List UInt8) : σ × List UInt8 :=
  hash.absorbBlocks data.length state data

variable {hash : BlockHash σ} {state : σ} {data : List UInt8}

/-- More fuel than bytes changes nothing. -/
theorem absorbBlocks_eq_run {fuel : Nat} (enough : data.length ≤ fuel) :
    hash.absorbBlocks fuel state data = hash.run state data := by
  have key : ∀ fuel₁ fuel₂ (state : σ) (data : List UInt8), data.length ≤ fuel₁ →
      data.length ≤ fuel₂ →
      hash.absorbBlocks fuel₁ state data = hash.absorbBlocks fuel₂ state data := by
    intro fuel₁
    induction fuel₁ with
    | zero =>
        intro fuel₂ state data h₁ _
        have hnil : data = [] := List.eq_nil_of_length_eq_zero (by omega)
        have hpos := hash.blockLen_pos
        cases fuel₂ with
        | zero => rfl
        | succ =>
            rw [hnil, absorbBlocks, absorbBlocks, if_neg (by simp; omega)]
    | succ _ ih =>
        intro fuel₂ state data h₁ h₂
        have hpos := hash.blockLen_pos
        cases fuel₂ with
        | zero =>
            have hnil : data = [] := List.eq_nil_of_length_eq_zero (by omega)
            rw [hnil, absorbBlocks, absorbBlocks, if_neg (by simp; omega)]
        | succ fuel₂ =>
            rw [absorbBlocks, absorbBlocks]
            split
            · exact ih fuel₂ _ _ (by simp; omega) (by simp; omega)
            · rfl
  exact key _ _ _ _ enough le_rfl

theorem run_of_short (state : σ) {data : List UInt8} (short : data.length < hash.blockLen) :
    hash.run state data = (state, data) := by
  unfold run
  cases hlen : data.length with
  | zero => rfl
  | succ => rw [absorbBlocks, if_neg (by omega)]

theorem run_of_block (state : σ) {data : List UInt8} (full : hash.blockLen ≤ data.length) :
    hash.run state data =
      hash.run (hash.compress state (data.take hash.blockLen)) (data.drop hash.blockLen) := by
  have hpos := hash.blockLen_pos
  obtain ⟨count, hlen⟩ : ∃ count, data.length = count + 1 := ⟨data.length - 1, by omega⟩
  rw [run, hlen, absorbBlocks, if_pos full]
  exact absorbBlocks_eq_run (by simp; omega)

/-- The rest is what whole blocks leave over. -/
theorem length_run_rest (hash : BlockHash σ) (state : σ) (data : List UInt8) :
    (hash.run state data).2.length = data.length % hash.blockLen := by
  induction hlen : data.length using Nat.strong_induction_on generalizing state data with
  | _ length ih =>
      have hpos := hash.blockLen_pos
      by_cases full : hash.blockLen ≤ data.length
      · have hdrop : (data.drop hash.blockLen).length = length - hash.blockLen := by
          rw [List.length_drop, hlen]
        rw [run_of_block state full, ih _ (by omega) _ _ hdrop, ← Nat.mod_eq_sub_mod (hlen ▸ full)]
      · rw [run_of_short state (by omega), Nat.mod_eq_of_lt (by omega), hlen]

theorem run_rest_short (hash : BlockHash σ) (state : σ) (data : List UInt8) :
    (hash.run state data).2.length < hash.blockLen := by
  rw [length_run_rest]
  exact Nat.mod_lt _ hash.blockLen_pos

/-- A message in two parts: the rest of the first part goes in front of the second. -/
theorem run_append (hash : BlockHash σ) (state : σ) (first second : List UInt8) :
    hash.run state (first ++ second) =
      hash.run (hash.run state first).1 ((hash.run state first).2 ++ second) := by
  induction hlen : first.length using Nat.strong_induction_on generalizing state first with
  | _ length ih =>
      have hpos := hash.blockLen_pos
      by_cases full : hash.blockLen ≤ first.length
      · have fullBoth : hash.blockLen ≤ (first ++ second).length := by
          rw [List.length_append]
          omega
        rw [run_of_block state full, run_of_block state fullBoth,
          List.take_append_of_le_length full, List.drop_append_of_le_length full]
        exact ih _ (by rw [List.length_drop]; omega) _ _ rfl
      · rw [run_of_short state (Nat.lt_of_not_le full)]

/-- The chaining value after the blocks of a message, one after the other. -/
def foldBlocks (hash : BlockHash σ) (state : σ) (data : List UInt8) : σ :=
  (List.range (data.length / hash.blockLen)).foldl
    (fun state index => hash.compress state
      ((data.drop (hash.blockLen * index)).take hash.blockLen)) state

theorem run_eq_foldBlocks (hash : BlockHash σ) (state : σ) {data : List UInt8}
    (whole : data.length % hash.blockLen = 0) :
    hash.run state data = (hash.foldBlocks state data, []) := by
  induction hlen : data.length using Nat.strong_induction_on generalizing state data with
  | _ length ih =>
      have hpos := hash.blockLen_pos
      by_cases full : hash.blockLen ≤ data.length
      · have hdrop : (data.drop hash.blockLen).length = data.length - hash.blockLen := List.length_drop
        have hcount : data.length / hash.blockLen = (data.length - hash.blockLen) / hash.blockLen + 1 :=
          Nat.div_eq_sub_div hpos full
        have hrest := ih _ (by omega) (hash.compress state (data.take hash.blockLen))
          (by rw [hdrop, ← Nat.mod_eq_sub_mod full, whole]) hdrop
        rw [run_of_block state full, hrest, foldBlocks, foldBlocks, hdrop, hcount, List.range_succ_eq_map,
          List.foldl_cons, List.foldl_map]
        simp only [List.drop_drop, Nat.mul_zero, List.drop_zero, Nat.mul_succ, Nat.add_comm hash.blockLen]
      · have hzero : data.length = 0 := by rwa [Nat.mod_eq_of_lt (by omega)] at whole
        rw [List.eq_nil_of_length_eq_zero hzero, foldBlocks, List.length_nil, Nat.zero_div]
        rfl

/-- The zero bytes that complete a block between the set bit and the length field. -/
def padZeros (hash : BlockHash σ) (length fieldLen : Nat) : Nat :=
  (hash.blockLen - (length + 1 + fieldLen) % hash.blockLen) % hash.blockLen

/-- As many zero bytes as needed, and no more. -/
theorem padZeros_spec (hash : BlockHash σ) (length fieldLen : Nat) :
    (length + 1 + hash.padZeros length fieldLen + fieldLen) % hash.blockLen = 0 ∧
      ∀ fewer < hash.padZeros length fieldLen, (length + 1 + fewer + fieldLen) % hash.blockLen ≠ 0 := by
  have hmod := Nat.mod_lt (length + 1 + fieldLen) hash.blockLen_pos
  have hzeros : ∀ zeros, (length + 1 + zeros + fieldLen) % hash.blockLen =
      ((length + 1 + fieldLen) % hash.blockLen + zeros) % hash.blockLen := by
    intro zeros
    rw [Nat.mod_add_mod, Nat.add_right_comm (length + 1)]
  constructor
  · rw [hzeros, padZeros, Nat.add_mod_mod, Nat.add_sub_cancel' hmod.le, Nat.mod_self]
  · intro fewer less
    rw [padZeros] at less
    rw [hzeros]
    generalize (length + 1 + fieldLen) % hash.blockLen = rest at *
    by_cases hrest : rest = 0
    · rw [hrest, Nat.sub_zero, Nat.mod_self] at less
      exact absurd less (Nat.not_lt_zero _)
    · rw [Nat.mod_eq_of_lt (by omega)] at less
      rw [Nat.mod_eq_of_lt (by omega)]
      omega

theorem padZeros_mod (hash : BlockHash σ) (length fieldLen : Nat) :
    hash.padZeros (length % hash.blockLen) fieldLen = hash.padZeros length fieldLen := by
  rw [padZeros, padZeros, Nat.add_assoc, Nat.mod_add_mod, Nat.add_assoc]

/-- The padded message. -/
def pad (hash : BlockHash σ) (data lengthField : List UInt8) : List UInt8 :=
  data ++ ([0x80] ++ List.replicate (hash.padZeros data.length lengthField.length) 0 ++ lengthField)

theorem length_pad_mod (hash : BlockHash σ) (data lengthField : List UInt8) :
    (hash.pad data lengthField).length % hash.blockLen = 0 := by
  have hwhole := (hash.padZeros_spec data.length lengthField.length).1
  simp only [pad, List.length_append, List.length_replicate, List.length_singleton]
  rwa [← Nat.add_assoc, ← Nat.add_assoc]

/-- A running hash: the chaining value, the bytes of the unfinished block and the
message length so far. -/
@[ext]
structure Stream (hash : BlockHash σ) where
  state : σ
  buf : List UInt8
  totalLen : UInt64
  short : buf.length < hash.blockLen

namespace Stream

variable {hash : BlockHash σ}

/-- Fill up the unfinished block, then take whole blocks, then keep the rest. -/
def absorbRaw (hash : BlockHash σ) (state : σ) (buf data : List UInt8) : σ × List UInt8 :=
  if 0 < buf.length then
    let take := min (hash.blockLen - buf.length) data.length
    let filled := buf ++ data.take take
    if filled.length = hash.blockLen then
      hash.absorbBlocks (data.length - take) (hash.compress state filled) (data.drop take)
    else (state, filled)
  else hash.absorbBlocks data.length state data

theorem absorbRaw_eq_run {state : σ} {buf data : List UInt8} (short : buf.length < hash.blockLen) :
    absorbRaw hash state buf data = hash.run state (buf ++ data) := by
  unfold absorbRaw
  dsimp only
  by_cases hbuf : 0 < buf.length
  · rw [if_pos hbuf]
    by_cases hfill : hash.blockLen - buf.length ≤ data.length
    · -- the piece completes the unfinished block
      have hlen : (buf ++ data.take (hash.blockLen - buf.length)).length = hash.blockLen := by
        simp; omega
      have full : hash.blockLen ≤ (buf ++ data).length := by simp; omega
      rw [min_eq_left hfill, if_pos hlen, run_of_block state full, List.take_append,
        List.drop_append, List.take_of_length_le short.le, List.drop_eq_nil_of_le short.le,
        List.nil_append]
      exact absorbBlocks_eq_run (by simp)
    · have hlen : (buf ++ data).length < hash.blockLen := by simp; omega
      rw [min_eq_right (by omega), List.take_length, if_neg (by omega), run_of_short state hlen]
  · have hnil : buf = [] := List.eq_nil_of_length_eq_zero (by omega)
    rw [if_neg hbuf, hnil]
    rfl

/-- Feed bytes without counting them into the message length. -/
def absorb (stream : Stream hash) (data : List UInt8) : Stream hash where
  state := (absorbRaw hash stream.state stream.buf data).1
  buf := (absorbRaw hash stream.state stream.buf data).2
  totalLen := stream.totalLen
  short := by
    rw [absorbRaw_eq_run stream.short]
    exact hash.run_rest_short _ _

/-- Feed message bytes. -/
def update (stream : Stream hash) (data : List UInt8) : Stream hash :=
  absorb { stream with totalLen := stream.totalLen + UInt64.ofNat data.length } data

/-- Zero bytes until the unfinished block holds this many bytes. -/
def padTo (target : Nat) : Nat → Stream hash → Stream hash
  | 0, stream => stream
  | fuel + 1, stream =>
      if stream.buf.length = target then stream else padTo target fuel (stream.absorb [0])

/-- Padding: one set bit, zero bytes, and the length field that completes a block. -/
def finish (stream : Stream hash) (lengthField : List UInt8) : Stream hash :=
  let padded := padTo (hash.blockLen - lengthField.length) hash.blockLen (stream.absorb [0x80])
  padded.absorb lengthField

variable (stream : Stream hash) (first second : List UInt8)

theorem absorb_absorb : (stream.absorb first).absorb second = stream.absorb (first ++ second) := by
  have hrun : hash.run (absorbRaw hash stream.state stream.buf first).1
      ((absorbRaw hash stream.state stream.buf first).2 ++ second) =
      absorbRaw hash stream.state stream.buf (first ++ second) := by
    rw [absorbRaw_eq_run stream.short, absorbRaw_eq_run stream.short, ← run_append,
      List.append_assoc]
  have hpair : absorbRaw hash (stream.absorb first).state (stream.absorb first).buf second =
      absorbRaw hash stream.state stream.buf (first ++ second) := by
    rw [absorbRaw_eq_run (stream.absorb first).short]
    exact hrun
  apply Stream.ext
  · exact congrArg Prod.fst hpair
  · exact congrArg Prod.snd hpair
  · rfl

/-- Feeding a message in pieces is feeding it whole. -/
theorem update_update : (stream.update first).update second = stream.update (first ++ second) := by
  have hlen : stream.totalLen + UInt64.ofNat first.length + UInt64.ofNat second.length =
      stream.totalLen + UInt64.ofNat (first ++ second).length := by
    rw [List.length_append, UInt64.ofNat_add, UInt64.add_assoc]
  have habsorb := absorb_absorb
    { stream with totalLen := stream.totalLen + UInt64.ofNat (first ++ second).length } first second
  rw [update, update, update, ← habsorb, ← hlen]
  rfl

@[simp]
theorem absorb_nil : stream.absorb [] = stream := by
  have hrun : absorbRaw hash stream.state stream.buf [] = (stream.state, stream.buf) := by
    rw [absorbRaw_eq_run stream.short, List.append_nil, run_of_short stream.state stream.short]
  apply Stream.ext
  · exact congrArg Prod.fst hrun
  · exact congrArg Prod.snd hrun
  · rfl

@[simp]
theorem update_nil : stream.update [] = stream := by
  rw [update, absorb_nil]
  apply Stream.ext
  · rfl
  · rfl
  · exact UInt64.add_zero _

/-- Only the concatenation of the pieces matters. -/
theorem foldl_update (chunks : List (List UInt8)) :
    chunks.foldl update stream = stream.update chunks.flatten := by
  induction chunks generalizing stream with
  | nil => rw [List.foldl_nil, List.flatten_nil, update_nil]
  | cons chunk rest ih => rw [List.foldl_cons, ih, update_update, List.flatten_cons]

theorem length_absorb_buf :
    (stream.absorb first).buf.length = (stream.buf.length + first.length) % hash.blockLen := by
  change (absorbRaw hash stream.state stream.buf first).2.length = _
  rw [absorbRaw_eq_run stream.short, length_run_rest, List.length_append]

/-- The padding loop feeds zero bytes up to its target, and no more of them than it needs. -/
theorem padTo_eq {target fuel count : Nat} {stream : Stream hash}
    (least : ∀ fewer < count, (stream.absorb (List.replicate fewer 0)).buf.length ≠ target)
    (reached : (stream.absorb (List.replicate count 0)).buf.length = target) (enough : count ≤ fuel) :
    padTo target fuel stream = stream.absorb (List.replicate count 0) := by
  induction fuel generalizing stream count with
  | zero => rw [Nat.le_zero.mp enough, List.replicate_zero, absorb_nil, padTo]
  | succ fuel ih =>
      cases count with
      | zero =>
          rw [List.replicate_zero, absorb_nil] at reached ⊢
          rw [padTo, if_pos reached]
      | succ count =>
          have hstart := least 0 count.succ_pos
          rw [List.replicate_zero, absorb_nil] at hstart
          have hzero : ∀ more, (stream.absorb [0]).absorb (List.replicate more 0) =
              stream.absorb (List.replicate (more + 1) 0) := by
            intro more
            rw [absorb_absorb, List.replicate_succ, List.singleton_append]
          rw [padTo, if_neg hstart, ← hzero]
          refine ih (fun fewer less => ?_) ?_ (Nat.le_of_succ_le_succ enough)
          · rw [hzero]
            exact least _ (Nat.succ_lt_succ less)
          · rw [hzero]
            exact reached

theorem mod_eq_sub_iff {length fieldLen blockLen : Nat} (pos : 0 < fieldLen)
    (fits : fieldLen ≤ blockLen) :
    length % blockLen = blockLen - fieldLen ↔ (length + fieldLen) % blockLen = 0 := by
  have hlt := Nat.mod_lt length (pos.trans_le fits)
  rw [← Nat.mod_add_mod]
  generalize length % blockLen = rest at *
  constructor
  · intro h
    rw [h, Nat.sub_add_cancel fits, Nat.mod_self]
  · intro h
    by_cases hsmall : rest + fieldLen < blockLen
    · rw [Nat.mod_eq_of_lt hsmall] at h
      omega
    · rw [Nat.mod_eq_sub_mod (by omega), Nat.mod_eq_of_lt (by omega)] at h
      omega

/-- The padding loop ends: after these zero bytes, and not before, the unfinished block has
room for the length field only, and the field leaves nothing over. -/
structure PaddingEnds (stream : Stream hash) (lengthField : List UInt8) (zeros : Nat) : Prop where
  before : ∀ fewer < zeros, (stream.absorb ([0x80] ++ List.replicate fewer 0)).buf.length ≠
    hash.blockLen - lengthField.length
  reached : (stream.absorb ([0x80] ++ List.replicate zeros 0)).buf.length =
    hash.blockLen - lengthField.length
  finished : stream.finish lengthField = stream.absorb ([0x80] ++ List.replicate zeros 0 ++ lengthField)
  empty : (stream.finish lengthField).buf = []

section Padding

variable {stream} {lengthField : List UInt8} {fieldLen : Nat} (length : lengthField.length = fieldLen)
  (pos : 0 < fieldLen) (fits : fieldLen ≤ hash.blockLen)

include length pos fits

theorem paddingEnds :
    PaddingEnds stream lengthField (hash.padZeros stream.buf.length lengthField.length) := by
  rw [← length] at pos fits
  obtain ⟨hwhole, hleast⟩ := hash.padZeros_spec stream.buf.length lengthField.length
  have hlength : ∀ zeros, (stream.absorb ([0x80] ++ List.replicate zeros 0)).buf.length =
      (stream.buf.length + 1 + zeros) % hash.blockLen := by
    intro zeros
    rw [length_absorb_buf, List.length_append, List.length_singleton, List.length_replicate,
      Nat.add_assoc]
  have hbound : hash.padZeros stream.buf.length lengthField.length < hash.blockLen :=
    Nat.mod_lt _ hash.blockLen_pos
  generalize hash.padZeros stream.buf.length lengthField.length = zeros at *
  have hbefore : ∀ fewer < zeros, (stream.absorb ([0x80] ++ List.replicate fewer 0)).buf.length ≠
      hash.blockLen - lengthField.length := by
    intro fewer less
    rw [hlength, Ne, mod_eq_sub_iff pos fits]
    exact hleast fewer less
  have hreached : (stream.absorb ([0x80] ++ List.replicate zeros 0)).buf.length =
      hash.blockLen - lengthField.length := by
    rw [hlength, mod_eq_sub_iff pos fits]
    exact hwhole
  have hfinished : stream.finish lengthField =
      stream.absorb ([0x80] ++ List.replicate zeros 0 ++ lengthField) := by
    simp only [← absorb_absorb] at hbefore hreached ⊢
    rw [finish, padTo_eq hbefore hreached hbound.le]
  refine ⟨hbefore, hreached, hfinished, List.eq_nil_of_length_eq_zero ?_⟩
  rw [hfinished, ← absorb_absorb, length_absorb_buf, hlength, Nat.mod_add_mod]
  exact hwhole

/-- A message fed to a fresh stream is padded and its blocks are compressed in turn. -/
theorem finish_update (fresh : stream.buf = []) (data : List UInt8) :
    ((stream.update data).finish lengthField).state =
      hash.foldBlocks stream.state (hash.pad data lengthField) := by
  have hlength : (stream.update data).buf.length = data.length % hash.blockLen := by
    rw [update, length_absorb_buf, fresh, List.length_nil, Nat.zero_add]
  have hfinished := (@paddingEnds _ _ (stream.update data) _ _ length pos fits).finished
  rw [hfinished, hlength, padZeros_mod, update, absorb_absorb]
  change (absorbRaw hash stream.state stream.buf (hash.pad data lengthField)).1 = _
  rw [absorbRaw_eq_run stream.short, fresh, List.nil_append,
    hash.run_eq_foldBlocks stream.state (hash.length_pad_mod data lengthField)]

end Padding

end Stream

end BlockHash

end Redoubt.Foundation
