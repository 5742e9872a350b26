import Mathlib.Data.Nat.Digits.Lemmas
import Redoubt.Services.ProgramHeap

/-!
# Fetching a program from the store

The supervisor asks the program store for the length of a program and then for one piece of
38 bytes after another.  Requests are text, pieces are binary, and both sides count on
their own.  With names that leave room for the offset the program arrives byte for byte as
long as both heaps last: every piece costs the store 80 bytes and the supervisor the piece
and a request, so that with untouched heaps a program of half a megabyte is too large.
-/

namespace Redoubt.Services

open Redoubt.Foundation Redoubt.Storage Alloc

/-- The calls to the program store are answered by it; so much of its heap is taken when the
n-th call comes.  A call on which the store panics fails with `E_PEER_DIED`; how a request to
start a program is answered is left open. -/
def ServedBy (w : Surroundings) (store : Initfs.Store) (heaps : Nat → BumpHeap heapSize) : Prop :=
  ∀ n words,
    match OnHeap.serve store words (heaps n) with
    | none => (w n).reply .initfs words = .error 7
    | some (none, _) => True
    | some (some reply, _) => (w n).reply .initfs words = .ok reply

/-- A byte that can stand in the name of a program. -/
def NameByte (byte : UInt8) : Prop := byte ≠ 32 ∧ byte ≠ 9 ∧ byte ≠ 13 ∧ byte ≠ 0

def chunkRequest (name : List UInt8) (off : Nat) : List UInt8 :=
  ascii "chunk " ++ name ++ [32] ++ pushNum (UInt64.ofNat off)

/-! ### Reading the requests -/

theorem NameByte.not_blank {byte : UInt8} (h : NameByte byte) : isBlank byte = false := by
  obtain ⟨hspace, htab, hreturn, _⟩ := h
  simp [isBlank, hspace, htab, hreturn]

theorem trim_of_nameBytes {text : List UInt8} (h : ∀ byte ∈ text, NameByte byte) : trim text = text := by
  refine Trimmed.trim_eq ⟨?_, ?_⟩
  · rw [List.dropWhile_eq_self_iff]
    intro hpos
    rw [(h _ (List.getElem_mem hpos)).not_blank]
    exact Bool.false_ne_true
  · rw [List.rdropWhile_eq_self_iff]
    intro hne
    rw [(h _ (List.getLast_mem hne)).not_blank]
    exact Bool.false_ne_true

theorem nameByte_of_mem_pushNum {value : UInt64} {byte : UInt8}
    (h : byte ∈ pushNum value) : NameByte byte := by
  rw [pushNum_eq, List.mem_map] at h
  obtain ⟨digit, hdigit, rfl⟩ := h
  have hvalue := digitByte_toNat (decimal_lt hdigit)
  have hne : ∀ other : UInt8, other.toNat < 48 → digitByte digit ≠ other := by
    intro other hother heq
    rw [heq] at hvalue
    omega
  exact ⟨hne 32 (by decide), hne 9 (by decide), hne 13 (by decide), hne 0 (by decide)⟩

namespace Initfs

theorem splitLast_append {name digits : List UInt8} (h : 32 ∉ digits) :
    splitLast (name ++ [32] ++ digits) = some (name, digits) := by
  have hnone : digits.reverse.findIdx? (· == 32) = none := by
    rw [List.findIdx?_eq_none_iff]
    intro byte hbyte
    rw [beq_eq_false_iff_ne]
    rintro rfl
    exact h (List.mem_reverse.mp hbyte)
  have hindex : (name ++ [32] ++ digits).reverse.findIdx? (· == 32) = some digits.length := by
    rw [List.reverse_append, List.reverse_append, List.findIdx?_append, hnone, List.length_reverse,
      List.reverse_singleton, List.singleton_append, List.findIdx?_cons, beq_self_eq_true, if_pos rfl]
    simp
  have hbefore : (name ++ [32] ++ digits).length - 1 - digits.length = name.length := by
    simp only [List.length_append, List.length_singleton]
    omega
  have hafter : (name ++ [32] ++ digits).length - digits.length = (name ++ [32]).length := by
    simp only [List.length_append]
    omega
  rw [splitLast, hindex, Option.map_some, hbefore, hafter, List.drop_left, List.append_assoc,
    List.take_left]

variable {store : Store} {pinned : Bytes 32} {name elf : List UInt8}

theorem lookup_of_mem (distinct : (store.map Prod.fst).Nodup) (stored : (name, elf) ∈ store) :
    lookup store name = some elf := by
  unfold lookup
  induction store with
  | nil => cases stored
  | cons first _ ih =>
      rw [List.map_cons, List.nodup_cons] at distinct
      rw [List.find?_cons]
      rcases List.mem_cons.mp stored with rfl | hrest
      · simp
      · have hne : first.1 ≠ name := fun heq =>
          distinct.1 (heq ▸ List.mem_map_of_mem (f := Prod.fst) hrest)
        rw [decide_eq_false hne]
        exact ih distinct.2 hrest

/-- The piece at an offset of a program. -/
theorem handleChunk_eq (distinct : (store.map Prod.fst).Nodup) (stored : (name, elf) ∈ store)
    (clean : ∀ byte ∈ name, NameByte byte) {off : Nat} (inside : off < elf.length)
    (small : elf.length ≤ 2 ^ 64) :
    handleChunk store (chunkRequest name off) =
      (elf.drop off).take 38 ++ List.replicate (40 - ((elf.drop off).take 38).length) 0 := by
  have hshape : chunkRequest name off =
      ascii "chunk " ++ (name ++ [32] ++ pushNum (UInt64.ofNat off)) := by
    simp [chunkRequest]
  have hdigits : ∀ byte ∈ pushNum (UInt64.ofNat off), NameByte byte := fun _ => nameByte_of_mem_pushNum
  have hoff : (UInt64.ofNat off).toNat = off := by
    rw [UInt64.toNat_ofNat']
    exact Nat.mod_eq_of_lt (by omega)
  have hpiece : (elf.drop off).take (min (off + 38) elf.length - off) = (elf.drop off).take 38 := by
    have hsize : min (off + 38) elf.length - off = min 38 (elf.drop off).length := by
      rw [List.length_drop]
      omega
    rw [hsize, ← List.take_eq_take_min]
  unfold handleChunk
  rw [hshape, stripPrefix_append]
  dsimp only
  rw [splitLast_append fun hmem => (hdigits 32 hmem).1 rfl]
  dsimp only
  rw [trim_of_nameBytes hdigits, parseNum_pushNum, trim_of_nameBytes clean, lookup_of_mem distinct stored]
  dsimp only
  rw [hoff, if_neg (Nat.not_le.mpr inside), hpiece]

end Initfs

/-! ### What the requests take -/

theorem length_pushNum_le {value : UInt64} {count : Nat} (pos : 0 < count)
    (h : value.toNat < 10 ^ count) :
    (pushNum value).length ≤ count := by
  rw [pushNum_eq, List.length_map, decimal]
  split_ifs
  · exact pos
  · rw [List.length_reverse]
    exact (Nat.digits_length_le_iff (by decide) _).mpr h

theorem length_pushNum_pos (value : UInt64) : 0 < (pushNum value).length := by
  rw [pushNum_eq, List.length_map]
  exact List.length_pos_iff.mpr (decimal_ne_nil _)

theorem length_pushNum_ofNat_le {value : Nat} (small : value ≤ 1024 * 1024) :
    (pushNum (UInt64.ofNat value)).length ≤ 7 := by
  refine length_pushNum_le (by decide) ?_
  rw [UInt64.toNat_ofNat']
  omega

/-- What the store takes of its heap to tell the length of a program. -/
def metaBytes (len : Nat) : Nat := 44 + if (pushNum (UInt64.ofNat len)).length ≤ 4 then 8 else 24

/-- What the supervisor takes of its heap for the request of a piece. -/
def chunkBytes (name : List UInt8) (off : Nat) : Nat :=
  if 6 ≤ name.length then 24 + 3 * name.length
  else if name.length + (pushNum (UInt64.ofNat off)).length ≤ 5 then 18 else 42

/-- What the supervisor takes of its heap to fetch a program. -/
def fetchBytes (name : List UInt8) (len : Nat) : Nat :=
  46 + (if name = [] then 0 else max 12 (6 + name.length)) + len +
    ((List.range' 0 ((len + 37) / 38)).map fun piece => chunkBytes name (38 * piece)).sum

namespace OnHeap

theorem takes_unpackInto {words : List UInt64} {text : List UInt8} {vec : Vec UInt8} {capacity : Nat}
    (h : vec.Holds text capacity) (room : text.length + 8 * words.length ≤ capacity) :
    Takes (unpackInto words vec) 0 (Vec.Holds (text ++ Msg.unpackWords words) capacity) := by
  induction words generalizing text vec with
  | nil =>
      rw [Msg.unpackWords, List.append_nil]
      exact takes_pure h
  | cons word words ih =>
      rw [List.length_cons] at room
      have hword : ((Bytes.ofU64 word).val.takeWhile (· ≠ 0)).length ≤ 8 :=
        (List.takeWhile_sublist _).length_le.trans_eq (Bytes.length_val _)
      have hlength : (text ++ (Bytes.ofU64 word).val.takeWhile (· ≠ 0)).length ≤ text.length + 8 := by
        rw [List.length_append]
        omega
      rw [unpackInto, Msg.unpackWords]
      refine ((Vec.takes_extend_room h ?_).bind fun next hnext => ?_).bytes (Nat.zero_add 0)
      · omega
      · split_ifs
        · exact takes_pure hnext
        · rw [← List.append_assoc]
          exact ih hnext (by omega)

theorem takes_unpack (words : Words) :
    Takes (unpack words) 40 fun text => text.data = Msg.unpack words :=
  (Vec.takes_withCapacity 40).bind fun _ hout =>
    (takes_unpackInto hout (by rw [List.length_ofFn, List.length_nil])).imp fun _ htext => htext.1

/-- The number behind the four bytes of a word. -/
theorem takes_pushNum_len {vec : Vec UInt8} (h : vec.Holds (ascii "len ") 4) {value : UInt64}
    (small : (Storage.pushNum value).length ≤ 7) :
    Takes (OnHeap.pushNum vec value) (if (Storage.pushNum value).length ≤ 4 then 8 else 24)
      fun text => text.data = ascii "len " ++ Storage.pushNum value := by
  have hpos := length_pushNum_pos value
  have hword : (ascii "len ").length = 4 := by decide
  split_ifs with hshort
  · exact (Vec.takes_pushAll_grow h (Nat.le_refl _) (by omega) (by omega)).imp fun _ htext => htext.1
  · -- the vector grows at the first digit and at the fifth
    have hsplit : OnHeap.pushNum vec value = (vec.pushAll ((Storage.pushNum value).take 4) >>= fun next =>
        next.pushAll ((Storage.pushNum value).drop 4)) := by
      rw [OnHeap.pushNum, Vec.pushAll, ← List.take_append_drop 4 (Storage.pushNum value),
        List.foldlM_append, List.take_append_drop]
      rfl
    have hfront : ((Storage.pushNum value).take 4).length = 4 := by
      rw [List.length_take]
      omega
    have hback : ((Storage.pushNum value).drop 4).length = (Storage.pushNum value).length - 4 :=
      List.length_drop
    have hboth : (ascii "len " ++ (Storage.pushNum value).take 4).length = 8 := by
      rw [List.length_append, hword, hfront]
    rw [hsplit]
    refine Takes.bind (Vec.takes_pushAll_grow h (Nat.le_refl _) ?_ ?_) fun next hnext =>
      (Vec.takes_pushAll_grow hnext (by decide) ?_ ?_).imp fun text htext => ?_
    · omega
    · omega
    · omega
    · omega
    · rw [htext.1, List.append_assoc, List.take_append_drop]

theorem takes_fetchRequest (name : List UInt8) :
    Takes (fetchRequest name) (6 + if name = [] then 0 else max 12 (6 + name.length))
      fun req => req.data = ascii "fetch " ++ name := by
  have hword : (ascii "fetch ").length = 6 := by decide
  have hstart := @Vec.takes_ofSlice heapSize _ (ascii "fetch ")
  rw [hword] at hstart
  refine hstart.bind fun req hreq => ?_
  split_ifs with hempty
  · refine (Vec.takes_extend_room hreq ?_).imp fun _ htext => htext.1
    rw [hempty, hword]
    rfl
  · have hpos := List.length_pos_iff.mpr hempty
    refine (Vec.takes_extend_grow hreq (by omega) ?_).imp fun _ htext => htext.1
    rw [hword]
    rfl

/-- The name and a blank behind the six bytes of a word. -/
theorem takes_named {word name : List UInt8} {vec : Vec UInt8} (h : vec.Holds word 6)
    (six : word.length = 6) :
    Takes (vec.extend name >>= fun next => next.push 32 : Alloc heapSize (Vec UInt8))
      (if 6 ≤ name.length then 18 + 3 * name.length else 12)
      (Vec.Holds (word ++ name ++ [32]) (if 6 ≤ name.length then 12 + 2 * name.length else 12)) := by
  have hnamed : (word ++ name).length = 6 + name.length := by rw [List.length_append, six]
  have hblank : [(32 : UInt8)].length = 1 := rfl
  by_cases hlong : 6 ≤ name.length
  · have htakes := (@Vec.takes_extend_grow heapSize _ _ _ _ h name (6 + name.length) (by omega)
      (by unfold Vec.growCap; omega)).bind fun next hnext =>
        @Vec.takes_extend_grow heapSize _ _ _ _ hnext [32] (12 + 2 * name.length) (by omega)
          (by unfold Vec.growCap; omega)
    rw [if_pos hlong, if_pos hlong]
    exact htakes.bytes (by omega)
  · rw [if_neg hlong, if_neg hlong]
    by_cases hempty : name.length = 0
    · exact (@Vec.takes_extend_room heapSize _ _ _ _ h name (by omega)).bind fun next hnext =>
        @Vec.takes_extend_grow heapSize _ _ _ _ hnext [32] 12 (by omega) (by unfold Vec.growCap; omega)
    · exact (@Vec.takes_extend_grow heapSize _ _ _ _ h name 12 (by omega)
        (by unfold Vec.growCap; omega)).bind fun next hnext => Vec.takes_extend_room hnext (by omega)

theorem takes_chunkRequest (name : List UInt8) {off : Nat}
    (small : (Storage.pushNum (UInt64.ofNat off)).length ≤ 7) :
    Takes (chunkRequest name off) (chunkBytes name off) fun creq =>
      creq.data = Services.chunkRequest name off := by
  have hsix : (ascii "chunk ").length = 6 := by decide
  have hstart := @Vec.takes_ofSlice heapSize _ (ascii "chunk ")
  rw [hsix] at hstart
  have hlength : (ascii "chunk " ++ name ++ [32]).length = 7 + name.length := by
    simp only [List.length_append, hsix, List.length_singleton]
    omega
  have hdigits : ∀ vec : Vec UInt8,
      vec.Holds (ascii "chunk " ++ name ++ [32]) (if 6 ≤ name.length then 12 + 2 * name.length else 12) →
      Takes (OnHeap.pushNum vec (UInt64.ofNat off)) (chunkBytes name off - 6 -
          if 6 ≤ name.length then 18 + 3 * name.length else 12)
        fun creq => creq.data = Services.chunkRequest name off := by
    intro vec hvec
    unfold chunkBytes
    split_ifs with hlong hshort
    · rw [if_pos hlong] at hvec
      exact ((Vec.takes_pushAll_room hvec (by omega)).imp fun _ htext => htext.1).bytes (by omega)
    · rw [if_neg hlong] at hvec
      exact (Vec.takes_pushAll_room hvec (by omega)).imp fun _ htext => htext.1
    · rw [if_neg hlong] at hvec
      exact (Vec.takes_pushAll_grow hvec (by decide) (by omega) (by omega)).imp fun _ htext => htext.1
  have htakes := hstart.bind fun word hword => (takes_named hword hsix).bind hdigits
  simp only [bind_assoc] at htakes
  refine htakes.bytes ?_
  unfold chunkBytes
  split_ifs <;> omega

end OnHeap

/-! ### The transfer -/

section Transfer

variable {w : Surroundings} {store : Initfs.Store} {heaps : Nat → BumpHeap heapSize}
  {name elf : List UInt8}

theorem unpackAll_pack {piece : List UInt8} (h : piece.length = 40) :
    Raw.unpackAll (Msg.pack piece) (List.replicate 40 0) = piece := by
  have hbytes : Raw.bytesOf (Msg.pack piece) = piece := by
    rw [Raw.bytesOf_pack, List.take_of_length_le h.le, h]
    exact List.append_nil _
  rw [Raw.unpackAll_eq, hbytes, List.length_replicate, Nat.min_self, List.take_of_length_le h.le,
    List.drop_eq_nil_of_le (by rw [List.length_replicate]), List.append_nil]

theorem zero_not_mem_chunkRequest (clean : ∀ byte ∈ name, NameByte byte) (off : Nat) :
    0 ∉ chunkRequest name off := by
  intro hzero
  rw [chunkRequest] at hzero
  simp only [List.mem_append, List.mem_singleton] at hzero
  rcases hzero with ((hword | hname) | hblank) | hdigit
  · exact absurd hword (by decide)
  · exact (clean 0 hname).2.2.2 rfl
  · exact absurd hblank (by decide)
  · exact (nameByte_of_mem_pushNum hdigit).2.2.2 rfl

theorem zero_not_mem_fetchRequest (clean : ∀ byte ∈ name, NameByte byte) :
    0 ∉ ascii "fetch " ++ name := by
  rw [List.mem_append, not_or]
  exact ⟨by decide, fun hname => (clean 0 hname).2.2.2 rfl⟩

theorem announcedLen_fetchMeta {len : Nat} (small : len ≤ 1024 * 1024) :
    announcedLen (Msg.unpack (Msg.pack (ascii "len " ++ pushNum (UInt64.ofNat len)))) = some len := by
  have hvalue : (UInt64.ofNat len).toNat = len := by
    rw [UInt64.toNat_ofNat']
    exact Nat.mod_eq_of_lt (by omega)
  have hshort : (ascii "len " ++ pushNum (UInt64.ofNat len)).length ≤ 40 := by
    rw [List.length_append]
    exact (Nat.add_le_add_left (length_pushNum_ofNat_le small) _).trans (by decide)
  have hnonzero : 0 ∉ ascii "len " ++ pushNum (UInt64.ofNat len) := by
    rw [List.mem_append, not_or]
    exact ⟨by decide, fun hdigit => (nameByte_of_mem_pushNum hdigit).2.2.2 rfl⟩
  rw [Msg.unpack_pack_text hshort hnonzero, announcedLen, stripPrefix_append]
  dsimp only
  rw [parseTrimmed_pushNum]
  dsimp only
  rw [hvalue, if_neg (by omega)]

/-- A text that fits a message is unpacked and dispatched. -/
theorem takes_serve {text : List UInt8} (short : text.length ≤ 40) (nonzero : 0 ∉ text) {bytes : Nat}
    {post : Option Words → Prop} (h : Takes (OnHeap.dispatchReq store text) bytes post) :
    Takes (OnHeap.serve store (Msg.pack text)) (40 + bytes) post :=
  (OnHeap.takes_unpack _).bind fun req hreq => by
    rw [hreq, Msg.unpack_pack_text short nonzero]
    exact h

theorem takes_serve_fetch (distinct : (store.map Prod.fst).Nodup) (stored : (name, elf) ∈ store)
    (clean : ∀ byte ∈ name, NameByte byte) (short : (ascii "fetch " ++ name).length ≤ 40)
    (small : elf.length ≤ 1024 * 1024) :
    Takes (OnHeap.serve store (Msg.pack (ascii "fetch " ++ name))) (metaBytes elf.length)
      (· = some (Msg.pack (ascii "len " ++ pushNum (UInt64.ofNat elf.length)))) := by
  have hword : (ascii "len ").length = 4 := by decide
  have hstart := @Vec.takes_ofSlice heapSize _ (ascii "len ")
  rw [hword] at hstart
  have hmeta := hstart.bind fun out hout =>
    OnHeap.takes_pushNum_len hout (length_pushNum_ofNat_le small)
  refine (takes_serve short (zero_not_mem_fetchRequest clean) ?_).bytes (Nat.add_assoc 40 4 _).symm
  have hlaunch : OnHeap.launches (ascii "fetch " ++ name) = false := rfl
  rw [OnHeap.dispatchReq, hlaunch, if_neg Bool.false_ne_true, stripPrefix_append]
  dsimp only
  rw [trim_of_nameBytes clean, OnHeap.fetchMeta, Initfs.lookup_of_mem distinct stored]
  exact hmeta.bind fun reply hreply => takes_pure (by rw [hreply])

theorem takes_serve_chunk (distinct : (store.map Prod.fst).Nodup) (stored : (name, elf) ∈ store)
    (clean : ∀ byte ∈ name, NameByte byte) {off : Nat} (short : (chunkRequest name off).length ≤ 40)
    (inside : off < elf.length) (small : elf.length ≤ 1024 * 1024) :
    Takes (OnHeap.serve store (Msg.pack (chunkRequest name off))) 80 (· = some (Msg.pack
      ((elf.drop off).take 38 ++ List.replicate (40 - ((elf.drop off).take 38).length) 0))) := by
  have hpiece := Initfs.handleChunk_eq distinct stored clean inside (by omega)
  have hlength : (Initfs.handleChunk store (chunkRequest name off)).length = 40 := by
    rw [hpiece, List.length_append, List.length_replicate, List.length_take]
    omega
  have hcopy := @Vec.takes_ofSlice heapSize _ (Initfs.handleChunk store (chunkRequest name off))
  rw [hlength] at hcopy
  have hshape : chunkRequest name off =
      ascii "chunk " ++ (name ++ [32] ++ pushNum (UInt64.ofNat off)) := by
    simp [chunkRequest]
  have hfetch : stripPrefix (chunkRequest name off) (ascii "fetch ") = none :=
    hshape ▸ stripPrefix_other (by decide) (by decide) _
  have hchunk : stripPrefix (chunkRequest name off) (ascii "chunk ") =
      some (name ++ [32] ++ pushNum (UInt64.ofNat off)) := hshape ▸ stripPrefix_append _ _
  refine (takes_serve short (zero_not_mem_chunkRequest clean off) ?_).bytes (rfl : 40 + (40 + 0) = 80)
  have hlaunch : OnHeap.launches (chunkRequest name off) = false := rfl
  rw [OnHeap.dispatchReq, hlaunch, if_neg Bool.false_ne_true, hfetch, hchunk, ← hpiece]
  exact hcopy.bind fun reply hreply => takes_pure (by rw [hreply.1])

/-- A call that the store has room for gets its reply, and one that it has no room for
fails. -/
theorem call_served (served : ServedBy w store heaps) {req reply : List UInt8} {bytes : Nat}
    (takes : Takes (OnHeap.serve store (Msg.pack req)) bytes (· = some (Msg.pack reply))) (s : Supd) :
    ∃ after, after.calls = s.calls + 1 ∧
      call w .initfs req s =
        (if (heaps s.calls).used + bytes ≤ heapSize then .ok (Msg.pack reply) else .error 7, after) := by
  refine ⟨(enter w s).2, rfl, congrArg (·, (enter w s).2) ?_⟩
  have hserved := served s.calls (Msg.pack req)
  split_ifs with hroom
  · obtain ⟨_, after, hrun, -, rfl⟩ := takes.room _ hroom
    rw [hrun] at hserved
    exact hserved
  · rw [takes.full _ (Nat.not_le.mp hroom)] at hserved
    exact hserved

/-- The pieces of a program that are still to come. -/
def piecesLeft (elf : List UInt8) (pieces : Nat) : Nat := (elf.length - 38 * pieces + 37) / 38

/-- What the supervisor takes of its heap for them. -/
def bytesLeft (name elf : List UInt8) (pieces : Nat) : Nat :=
  ((List.range' pieces (piecesLeft elf pieces)).map fun piece => chunkBytes name (38 * piece)).sum

theorem piecesLeft_more {pieces : Nat} (more : 38 * pieces < elf.length) :
    piecesLeft elf pieces = piecesLeft elf (pieces + 1) + 1 := by
  unfold piecesLeft
  omega

theorem bytesLeft_more {pieces : Nat} (more : 38 * pieces < elf.length) :
    bytesLeft name elf pieces = chunkBytes name (38 * pieces) + bytesLeft name elf (pieces + 1) := by
  rw [bytesLeft, piecesLeft_more more, List.range'_succ, List.map_cons, List.sum_cons, bytesLeft]

/-- The piece that a reply carries goes behind those that have arrived. -/
theorem take_append_piece {pieces : Nat} (more : 38 * pieces < elf.length) :
    elf.take (38 * pieces) ++ (Raw.unpackAll (Msg.pack ((elf.drop (38 * pieces)).take 38 ++
        List.replicate (40 - ((elf.drop (38 * pieces)).take 38).length) 0)) (List.replicate 40 0)).take
      (min (elf.length - 38 * pieces) 38) = elf.take (38 * (pieces + 1)) := by
  have hgrown : elf.take (38 * (pieces + 1)) =
      elf.take (38 * pieces) ++ (elf.drop (38 * pieces)).take 38 := by
    rw [Nat.mul_add, Nat.mul_one, List.take_add]
  have hlength : ((elf.drop (38 * pieces)).take 38).length = min 38 (elf.length - 38 * pieces) := by
    rw [List.length_take, List.length_drop]
  rw [hgrown]
  generalize (elf.drop (38 * pieces)).take 38 = piece at hlength ⊢
  have hwhole : (piece ++ List.replicate (40 - piece.length) 0).length = 40 := by
    rw [List.length_append, List.length_replicate]
    omega
  rw [unpackAll_pack hwhole, List.take_left' (by omega)]

section Loop

variable (served : ServedBy w store heaps) (distinct : (store.map Prod.fst).Nodup)
  (stored : (name, elf) ∈ store) (clean : ∀ byte ∈ name, NameByte byte)
  (fits : ∀ off < elf.length, off % 38 = 0 → (chunkRequest name off).length ≤ 40)
  (small : elf.length ≤ 1024 * 1024)

include served distinct stored clean fits small

/-- The reply to the request of a piece. -/
theorem call_chunk {pieces : Nat} (more : 38 * pieces < elf.length) (s : Supd) :
    ∃ after, after.calls = s.calls + 1 ∧ call w .initfs (chunkRequest name (38 * pieces)) s =
      (if (heaps s.calls).used + 80 ≤ heapSize then .ok (Msg.pack ((elf.drop (38 * pieces)).take 38 ++
        List.replicate (40 - ((elf.drop (38 * pieces)).take 38).length) 0)) else .error 7, after) :=
  call_served served (takes_serve_chunk distinct stored clean (fits _ more (by omega)) more small) s

/-- With a store that answers, the loop adds one piece per call until the program is
complete. -/
theorem takes_fetchChunks {fuel pieces : Nat} {buf : Vec UInt8} {s : Supd}
    (hbuf : buf.Holds (elf.take (38 * pieces)) elf.length) (enough : elf.length ≤ 38 * pieces + fuel)
    (answers : ∀ piece < piecesLeft elf pieces, (heaps (s.calls + piece)).used + 80 ≤ heapSize) :
    Takes (OnHeap.fetchChunks w name elf.length fuel buf s) (bytesLeft name elf pieces) fun outcome =>
      ∃ vec after, outcome = (.ok vec, after) ∧ vec.data = elf ∧
        after.calls = s.calls + piecesLeft elf pieces := by
  induction fuel generalizing pieces buf s with
  | zero =>
      have hnone : piecesLeft elf pieces = 0 := by
        unfold piecesLeft
        omega
      rw [OnHeap.fetchChunks, bytesLeft, hnone]
      refine takes_pure ⟨buf, s, rfl, ?_, rfl⟩
      rw [hbuf.1, List.take_of_length_le (by omega)]
  | succ fuel ih =>
      rw [OnHeap.fetchChunks, hbuf.1, List.length_take]
      by_cases more : 38 * pieces < elf.length
      · have hleft := piecesLeft_more more
        obtain ⟨next, hcalls, hcall⟩ := call_chunk served distinct stored clean fits small more s
        rw [min_eq_left (Nat.le_of_lt more), if_pos more]
        refine ((OnHeap.takes_chunkRequest name (length_pushNum_ofNat_le (by omega))).bind
          fun creq hcreq => ?_).bytes (bytesLeft_more more).symm
        have hroom : (heaps s.calls).used + 80 ≤ heapSize := answers 0 (by omega)
        rw [hcreq, hcall, if_pos hroom]
        refine ((Vec.takes_extend_room hbuf ?_).bind fun grown hgrown => ?_).bytes (Nat.zero_add _)
        · simp only [List.length_take]
          omega
        · rw [take_append_piece more] at hgrown
          refine (ih hgrown (by omega) fun piece hpiece => ?_).imp ?_
          · rw [hcalls, Nat.add_assoc, Nat.add_comm 1]
            exact answers (piece + 1) (by omega)
          · rintro _ ⟨vec, after, rfl, hdata, hafter⟩
            exact ⟨vec, after, rfl, hdata, by omega⟩
      · have hnone : piecesLeft elf pieces = 0 := by
          unfold piecesLeft
          omega
        rw [if_neg (by omega), bytesLeft, hnone]
        refine takes_pure ⟨buf, s, rfl, ?_, rfl⟩
        rw [hbuf.1, List.take_of_length_le (by omega)]

/-- A loop that ends well was answered every time. -/
theorem fetchChunks_answered {fuel pieces : Nat} {buf vec : Vec UInt8} {s after : Supd}
    {heap rest : BumpHeap heapSize} (hbuf : buf.Holds (elf.take (38 * pieces)) elf.length)
    (enough : elf.length ≤ 38 * pieces + fuel)
    (h : OnHeap.fetchChunks w name elf.length fuel buf s heap = some ((.ok vec, after), rest)) :
    ∀ piece < piecesLeft elf pieces, (heaps (s.calls + piece)).used + 80 ≤ heapSize := by
  induction fuel generalizing pieces buf s heap with
  | zero =>
      intro piece hpiece
      unfold piecesLeft at hpiece
      omega
  | succ fuel ih =>
      intro piece hpiece
      have more : 38 * pieces < elf.length := by
        unfold piecesLeft at hpiece
        omega
      have hleft := piecesLeft_more more
      obtain ⟨next, hcalls, hcall⟩ := call_chunk served distinct stored clean fits small more s
      rw [OnHeap.fetchChunks, hbuf.1, List.length_take, min_eq_left (Nat.le_of_lt more), if_pos more] at h
      obtain ⟨creq, between, hcreq, h⟩ := exists_of_bind h
      have hdata : creq.data = chunkRequest name (38 * pieces) :=
        OnHeap.gives_chunkRequest _ _ _ _ _ hcreq
      rw [hdata, hcall] at h
      by_cases hroom : (heaps s.calls).used + 80 ≤ heapSize
      · rw [if_pos hroom] at h
        obtain ⟨grown, beyond, hextend, h⟩ := exists_of_bind h
        have hgrown :=
          (Vec.takes_extend_room hbuf (by simp only [List.length_take]; omega)).of_some hextend
        rw [take_append_piece more] at hgrown
        cases piece with
        | zero => exact hroom
        | succ piece =>
            have hlater := ih hgrown.2.2 (by omega) h piece (by omega)
            rwa [hcalls, Nat.add_assoc, Nat.add_comm 1] at hlater
      · rw [if_neg hroom] at h
        cases h

end Loop

section Fetch

variable (served : ServedBy w store heaps) (distinct : (store.map Prod.fst).Nodup)
  (stored : (name, elf) ∈ store) (clean : ∀ byte ∈ name, NameByte byte)
  (short : (ascii "fetch " ++ name).length ≤ 40)
  (fits : ∀ off < elf.length, off % 38 = 0 → (chunkRequest name off).length ≤ 40)
  (small : elf.length ≤ 1024 * 1024)

include served distinct stored clean short fits small

theorem takes_fetchProgram {s : Supd} (tells : (heaps s.calls).used + metaBytes elf.length ≤ heapSize)
    (answers : ∀ piece < piecesLeft elf 0, (heaps (s.calls + 1 + piece)).used + 80 ≤ heapSize) :
    Takes (OnHeap.fetchProgram w name s) (fetchBytes name elf.length) fun outcome =>
      ∃ vec after, outcome = (.ok vec, after) ∧ vec.data = elf ∧
        after.calls = s.calls + 1 + piecesLeft elf 0 := by
  obtain ⟨next, hcalls, hcall⟩ :=
    call_served served (takes_serve_fetch distinct stored clean short small) s
  have hfetch :
      Takes (OnHeap.fetchProgram w name s) (6 + (if name = [] then 0 else max 12 (6 + name.length)) +
      (40 + (elf.length + bytesLeft name elf 0))) fun outcome =>
        ∃ vec after, outcome = (.ok vec, after) ∧ vec.data = elf ∧
          after.calls = s.calls + 1 + piecesLeft elf 0 := by
    refine (OnHeap.takes_fetchRequest name).bind fun req hreq => ?_
    rw [hreq, hcall, if_pos tells]
    refine (OnHeap.takes_unpack _).bind fun text htext => ?_
    rw [htext, announcedLen_fetchMeta small]
    refine (Vec.takes_withCapacity _).bind fun buf hbuf => ?_
    rw [← hcalls] at answers ⊢
    exact takes_fetchChunks served distinct stored clean fits small hbuf (by omega) answers
  refine hfetch.bytes ?_
  unfold fetchBytes
  change _ = 46 + _ + _ + bytesLeft name elf 0
  omega

theorem fetchProgram_answered {s after : Supd} {vec : Vec UInt8} {heap rest : BumpHeap heapSize}
    (h : OnHeap.fetchProgram w name s heap = some ((.ok vec, after), rest)) :
    (heaps s.calls).used + metaBytes elf.length ≤ heapSize ∧
      ∀ piece < piecesLeft elf 0, (heaps (s.calls + 1 + piece)).used + 80 ≤ heapSize := by
  obtain ⟨next, hcalls, hcall⟩ :=
    call_served served (takes_serve_fetch distinct stored clean short small) s
  obtain ⟨req, between, hreq, h⟩ := exists_of_bind h
  rw [OnHeap.gives_fetchRequest _ _ _ _ hreq, hcall] at h
  by_cases tells : (heaps s.calls).used + metaBytes elf.length ≤ heapSize
  · rw [if_pos tells] at h
    obtain ⟨text, beyond, htext, h⟩ := exists_of_bind h
    rw [OnHeap.gives_unpack _ _ _ _ htext, announcedLen_fetchMeta small] at h
    obtain ⟨buf, last, hbuf, h⟩ := exists_of_bind h
    have hholds := ((Vec.takes_withCapacity elf.length).of_some hbuf).2.2
    rw [← hcalls]
    exact ⟨tells, fetchChunks_answered served distinct stored clean fits small hholds (by omega) h⟩
  · rw [if_neg tells] at h
    cases h

end Fetch

end Transfer

/-! ### Which programs arrive -/

/-- The names of a store are distinct, free of blanks and zeros, and leave room for the
offset of every piece. -/
structure Fetchable (store : Initfs.Store) : Prop where
  distinct : (store.map Prod.fst).Nodup
  clean : ∀ program ∈ store, ∀ byte ∈ program.1, NameByte byte
  fits : ∀ program ∈ store, ∀ off < program.2.length, off % 38 = 0 →
    (chunkRequest program.1 off).length ≤ 40

/-- The store answers every call with these heaps, and nothing else happens. -/
def storeWorld (store : Initfs.Store) (heaps : Nat → BumpHeap heapSize) : Surroundings := fun n =>
  { exits := []
    tick := 0
    refusal := none
    skipped := 0
    reply := fun _ words =>
      match OnHeap.serve store words (heaps n) with
      | none => .error 7
      | some (none, _) => .error 1
      | some (some reply, _) => .ok reply
    message := .error 10 }

theorem storeWorld_served (store : Initfs.Store) (heaps : Nat → BumpHeap heapSize) :
    ServedBy (storeWorld store heaps) store heaps := by
  intro n words
  cases hserve : OnHeap.serve store words (heaps n) with
  | none => simp only [storeWorld, hserve]
  | some served =>
      obtain ⟨_ | reply, after⟩ := served
      · trivial
      · simp only [storeWorld, hserve]

/-- A heap of which nothing is taken. -/
def untouched : BumpHeap heapSize := ⟨0, Nat.zero_le _⟩

def heartStore (elf : List UInt8) : Initfs.Store := [(ascii "heart", elf)]

theorem heartStore_fetchable {elf : List UInt8} (small : elf.length ≤ 1024 * 1024) :
    Fetchable (heartStore elf) where
  distinct := List.nodup_singleton _
  clean := List.forall_mem_singleton.mpr
    (show ∀ byte ∈ ascii "heart", NameByte byte by unfold NameByte; decide +kernel)
  fits := by
    refine List.forall_mem_singleton.mpr fun off hoff _ => ?_
    have hdigits := length_pushNum_ofNat_le ((Nat.le_of_lt hoff).trans small)
    have hword : (ascii "chunk ").length = 6 ∧ (ascii "heart").length = 5 := by decide
    simp only [chunkRequest, List.length_append, List.length_singleton]
    omega

theorem heartStore_short (elf : List UInt8) :
    ∀ program ∈ heartStore elf, (ascii "fetch " ++ program.1).length ≤ 40 :=
  List.forall_mem_singleton.mpr (show (ascii "fetch " ++ ascii "heart").length ≤ 40 by decide)

theorem fetchBytes_heart (len : Nat) :
    fetchBytes (ascii "heart") len = 58 + len + 42 * ((len + 37) / 38) := by
  have hname : (ascii "heart").length = 5 := by decide
  have hchunk : (fun piece => chunkBytes (ascii "heart") (38 * piece)) = fun _ => 42 := by
    funext piece
    have hpos := length_pushNum_pos (UInt64.ofNat (38 * piece))
    rw [chunkBytes, if_neg (by omega), if_neg (by omega)]
  rw [fetchBytes, hchunk, hname, if_neg (by decide), List.map_const', List.length_range',
    List.sum_replicate_nat]
  omega

theorem metaBytes_le (len : Nat) : metaBytes len ≤ 68 := by
  unfold metaBytes
  split_ifs <;> decide

/-- The length of the largest program of this name that arrives. -/
def largestHeart : Nat := 498028

/-- The store's heap at its n-th call when it serves nothing but one fetch. -/
def storeHeaps (n : Nat) : BumpHeap heapSize := ⟨min (80 * n - 12) heapSize, min_le_right _ _⟩

/-- A larger program of this name makes the supervisor panic. -/
theorem heart_aborts {elf : List UInt8} (large : largestHeart < elf.length)
    (small : elf.length ≤ 1024 * 1024) :
    OnHeap.fetchProgram (storeWorld (heartStore elf) fun _ => untouched) (ascii "heart")
      ⟨[], [], 0, 0, []⟩
      untouched = none := by
  have hsize : heapSize = 1048576 := rfl
  have hused : untouched.used = 0 := rfl
  have hnames := heartStore_fetchable small
  have hstored : (ascii "heart", elf) ∈ heartStore elf := List.mem_singleton_self _
  have hmeta := metaBytes_le elf.length
  have htakes :=
    takes_fetchProgram (storeWorld_served (heartStore elf) fun _ => untouched) hnames.distinct hstored
    (hnames.clean _ hstored) (heartStore_short elf _ hstored) (hnames.fits _ hstored) small
    (s := ⟨[], [], 0, 0, []⟩) (by omega) fun _ _ => by omega
  refine htakes.full untouched ?_
  rw [fetchBytes_heart]
  unfold largestHeart at large
  omega

end Redoubt.Services
