import ShaderPack.Proofs.Tables
import Mathlib.Algebra.GroupWithZero.Nat
import Mathlib.Data.List.Induction

/-!
# Any history of blobs

A store refuses a blob that has no room, and other blobs can follow it. Storing a blob changes the
spans and the pool, one after the other (`BlobStore.store`); a refusal between the two would leave
them apart. An `Intake` asks for one blob after another on a store that starts empty, and keeps a
list of those that were taken.

* `BlobStore.submit_eq`: there is no such refusal. A request is refused before anything is changed.
* `Intake.Sound`: the pool has the taken blobs one behind the other, and the spans tell where they
  are (`Intake.Sound.step`, `Intake.sound_ofHistory`).
* `Intake.blobs_exact`: the statement about all histories.
-/

namespace ShaderPack

namespace BlobStore

/-- Store a blob: check that there is room, note its place, append its bytes. What was done before a
refusal stays done. -/
def store (blob : Bytes) : OptionT (StateM BlobStore) UInt32 := do
  if limit < (← get).byteCount + blob.length then failure
  let id := UInt32.ofNat (← get).count
  modify fun s =>
    { s with spans := s.spans.push ⟨UInt32.ofNat s.byteCount, UInt32.ofNat blob.length⟩ }
  modify fun s => { s with pool := s.pool ++ blob }
  return id

/-- Ask for a blob to be stored. Gives the id, if the blob was taken, and the store as it is
left. -/
def submit (s : BlobStore) (blob : Bytes) : Option UInt32 × BlobStore := (store blob).run.run s

/-- What a request comes to: it changes all or nothing. -/
theorem submit_eq (s : BlobStore) (blob : Bytes) : s.submit blob =
    match s.add? blob with
    | none => (none, s)
    | some (s', id) => (some id, s') := by
  unfold submit store add?
  change StateT.run (OptionT.run (if limit < s.byteCount + blob.length then _ else _)) s = _
  by_cases hle : s.byteCount + blob.length ≤ limit
  · rw [if_pos hle, if_neg (Nat.not_lt.mpr hle)]
    rfl
  · rw [if_neg hle, if_pos (Nat.lt_of_not_le hle)]
    rfl

/-- A blob is refused exactly if the pool would be longer than its limit. -/
theorem add?_eq_none_iff {s : BlobStore} {blob : Bytes} :
    s.add? blob = none ↔ limit < s.byteCount + blob.length := by
  rw [add?, ← Nat.not_le]
  split <;> simp_all

end BlobStore

/-- A store, and the blobs that it took, oldest first. -/
structure Intake where
  /-- The store. -/
  store : BlobStore
  /-- The blobs. -/
  taken : List Bytes

namespace Intake

variable {x : Intake} {blob : Bytes}

/-- Ask for a blob to be stored. -/
def step (x : Intake) (blob : Bytes) : Intake :=
  match x.store.submit blob with
  | (none, s) => ⟨s, x.taken⟩
  | (some _, s) => ⟨s, x.taken ++ [blob]⟩

/-- The store and its blobs after a history of requests. -/
def ofHistory (requests : List Bytes) : Intake := requests.foldl step ⟨.empty, []⟩

/-- The number of bytes in front of blob number `i`. -/
def offset (x : Intake) (i : Nat) : Nat := ((x.taken.take i).map List.length).sum

/-- The number of bytes of all blobs. -/
def total (x : Intake) : Nat := (x.taken.map List.length).sum

/-- The pool has the blobs one behind the other, and the spans tell where they are. -/
structure Sound (x : Intake) : Prop where
  pool : x.store.pool.toList = x.taken.flatten
  room : x.store.byteCount ≤ BlobStore.limit
  count : x.store.count = x.taken.length
  spans : ∀ i : Nat, x.store.spans[i]? =
    x.taken[i]?.map fun blob => ⟨UInt32.ofNat (x.offset i), UInt32.ofNat blob.length⟩

/-- The empty store describes the empty history. -/
theorem sound_empty : Sound ⟨.empty, []⟩ where
  pool := rfl
  room := Nat.zero_le _
  count := rfl
  spans i := by simp [BlobStore.empty]

/-- The store counts the bytes of the blobs that were taken. -/
theorem Sound.byteCount (h : x.Sound) : x.store.byteCount = x.total := by
  rw [BlobStore.byteCount_eq, h.pool, List.length_flatten, total]

/-- Behind the last blob, all bytes have come. -/
theorem offset_length (x : Intake) : x.offset x.taken.length = x.total := by
  rw [offset, List.take_length, total]

/-- A new blob does not move the others. -/
theorem offset_concat (s : BlobStore) (x : Intake) (blob : Bytes) {i : Nat}
    (hi : i ≤ x.taken.length) : offset ⟨s, x.taken ++ [blob]⟩ i = x.offset i := by
  rw [offset, List.take_append_of_le_length hi, offset]

/-- What a request does: it is refused, or the blob is taken. -/
theorem step_cases (x : Intake) (blob : Bytes) :
    (x.store.add? blob = none ∧ x.store.submit blob = (none, x.store) ∧ x.step blob = x) ∨
      ∃ s id, x.store.add? blob = some (s, id) ∧ x.store.submit blob = (some id, s) ∧
        x.step blob = ⟨s, x.taken ++ [blob]⟩ := by
  have hsubmit := x.store.submit_eq blob
  rw [step]
  cases hadd : x.store.add? blob with
  | none =>
      simp only [hadd] at hsubmit
      rw [hsubmit]
      exact .inl ⟨rfl, rfl, rfl⟩
  | some added =>
      obtain ⟨s, id⟩ := added
      simp only [hadd] at hsubmit
      rw [hsubmit]
      exact .inr ⟨s, id, rfl, rfl, rfl⟩

/-- **One request** keeps pool, spans and blobs in step. -/
theorem Sound.step (h : x.Sound) (blob : Bytes) : (x.step blob).Sound := by
  obtain ⟨-, -, hsame⟩ | ⟨s, id, hadd, -, hnext⟩ := x.step_cases blob
  · rwa [hsame]
  · obtain ⟨hroom, hpool, hspans, -⟩ := BlobStore.add?_eq_some hadd
    rw [hnext]
    refine ⟨?_, ?_, ?_, fun i => ?_⟩
    · rw [hpool, h.pool, List.flatten_append, List.flatten_singleton]
    · rwa [BlobStore.byteCount_of_add? hadd]
    · rw [BlobStore.count_of_add? hadd, h.count, List.length_append, List.length_singleton]
    · have hsize : x.store.spans.size = x.taken.length := h.count
      rw [hspans, Array.getElem?_push, h.spans, hsize]
      obtain hi | rfl | hi := Nat.lt_trichotomy i x.taken.length
      · rw [if_neg (Nat.ne_of_lt hi), List.getElem?_append_left hi,
          offset_concat s x blob (Nat.le_of_lt hi)]
      · rw [if_pos rfl, List.getElem?_concat_length, offset_concat s x blob (Nat.le_refl _),
          offset_length, h.byteCount]
        rfl
      · have hnone : (x.taken ++ [blob])[i]? = none :=
          List.getElem?_eq_none (by rwa [List.length_append])
        rw [if_neg (Nat.ne_of_gt hi), List.getElem?_eq_none (Nat.le_of_lt hi), hnone]
        rfl

/-- Pool, spans and blobs are in step after any history. -/
theorem sound_ofHistory (requests : List Bytes) : (ofHistory requests).Sound :=
  List.foldlRecOn (motive := Sound) requests step sound_empty fun _ h blob _ => h.step blob

/-! ### What a store says -/

/-- A blob stands in the pool behind the blobs before it. -/
theorem flatten_eq {i : Nat} (h : x.taken[i]? = some blob) :
    x.taken.flatten = (x.taken.take i).flatten ++ (blob ++ (x.taken.drop (i + 1)).flatten) := by
  obtain ⟨hi, rfl⟩ := List.getElem?_eq_some_iff.mp h
  rw [← List.flatten_cons, ← List.drop_eq_getElem_cons hi, ← List.flatten_append,
    List.take_append_drop]

/-- A blob starts behind the bytes of the blobs before it. -/
theorem length_take_flatten (x : Intake) (i : Nat) :
    (x.taken.take i).flatten.length = x.offset i := by
  rw [List.length_flatten, offset]

/-- Every blob lies within the pool. -/
theorem Sound.offset_add_le (h : x.Sound) {i : Nat} (hi : x.taken[i]? = some blob) :
    x.offset i + blob.length ≤ x.store.byteCount := by
  have hlength := congrArg List.length (flatten_eq hi)
  rw [List.length_append, List.length_append, length_take_flatten, ← h.pool,
    ← BlobStore.byteCount_eq] at hlength
  omega

/-- Offsets and lengths fit 32 bits. -/
theorem Sound.toNat_place (h : x.Sound) {i : Nat} (hi : x.taken[i]? = some blob) :
    (UInt32.ofNat (x.offset i)).toNat = x.offset i ∧
    (UInt32.ofNat blob.length).toNat = blob.length := by
  have hle := Nat.le_trans (h.offset_add_le hi) h.room
  rw [BlobStore.limit, UInt32.size] at hle
  constructor <;> exact UInt32.toNat_ofNat_of_lt' (by rw [UInt32.size]; omega)

/-- The offset of a blob is the number of bytes that were taken before it. It has not wrapped
around. -/
theorem Sound.offset?_eq (h : x.Sound) (i : UInt32) :
    (x.store.offset? i).map UInt32.toNat = x.taken[i.toNat]?.map fun _ => x.offset i.toNat := by
  rw [BlobStore.offset?, BlobStore.span?, h.spans]
  cases hi : x.taken[i.toNat]? with
  | none => rfl
  | some blob => exact congrArg some (h.toNat_place hi).1

/-- What the store gives for an id is the blob that was taken at this place. -/
theorem Sound.blob?_eq (h : x.Sound) (i : UInt32) : x.store.blob? i = x.taken[i.toNat]? := by
  have hspan : x.store.span? i = _ := h.spans i.toNat
  cases hi : x.taken[i.toNat]? with
  | none =>
      rw [hi] at hspan
      rw [BlobStore.blob?, hspan]
      rfl
  | some blob =>
      rw [hi] at hspan
      obtain ⟨hoffset, hlength⟩ := h.toNat_place hi
      refine BlobStore.blob?_eq_some_iff.mpr ⟨_, hspan, ?_, ?_⟩
      · rw [hoffset, hlength]
        exact h.offset_add_le hi
      · rw [BlobStore.slice_eq, hoffset, hlength, h.pool, flatten_eq hi, ← length_take_flatten,
          List.drop_left, List.take_left]

/-! ### All histories -/

/-- A history with one request more goes one step further. -/
theorem ofHistory_concat (requests : List Bytes) (blob : Bytes) :
    ofHistory (requests ++ [blob]) = (ofHistory requests).step blob := by
  rw [ofHistory, List.foldl_concat]
  rfl

/-- A blob is taken if there is room for it. -/
theorem taken_concat (requests : List Bytes) (blob : Bytes) :
    (ofHistory (requests ++ [blob])).taken =
      if (ofHistory requests).total + blob.length ≤ BlobStore.limit then
        (ofHistory requests).taken ++ [blob]
      else (ofHistory requests).taken := by
  rw [ofHistory_concat, ← (sound_ofHistory requests).byteCount]
  obtain ⟨hadd, -, hsame⟩ | ⟨s, id, hadd, -, hnext⟩ := (ofHistory requests).step_cases blob
  · rw [hsame, if_neg (Nat.not_le.mpr (BlobStore.add?_eq_none_iff.mp hadd))]
  · rw [hnext, if_pos (BlobStore.add?_eq_some hadd).1]

/-- **Blobs, whatever came before.** Take the store after any history of requests, granted and
refused ones.

It has the blobs that were taken, in order: blob number `i` is there under the id `i`, its offset is
the number of bytes of the blobs before it, and the pool has as many bytes as all of them. Under any
other id there is neither a blob nor an offset. A further blob is refused exactly if these bytes and
its own are more than the limit, and then nothing changes. Any other is taken, and its id is the
number of blobs before it. -/
theorem blobs_exact (requests : List Bytes) :
    let x := ofHistory requests
    x.store.byteCount = (x.taken.map List.length).sum ∧
    (∀ i : UInt32, x.store.blob? i = x.taken[i.toNat]?) ∧
    (∀ i : UInt32, (x.store.offset? i).map UInt32.toNat =
      if i.toNat < x.taken.length then some ((x.taken.take i.toNat).map List.length).sum
        else none) ∧
    ∀ blob : Bytes,
      ((x.store.submit blob).1 = none ↔
        BlobStore.limit < (x.taken.map List.length).sum + blob.length) ∧
      ((x.store.submit blob).1 = none → x.store.add? blob = none ∧
        (x.store.submit blob).2 = x.store ∧
        ofHistory (requests ++ [blob]) = x) ∧
      ∀ id, (x.store.submit blob).1 = some id →
        (x.taken.length < 2 ^ 32 → id.toNat = x.taken.length) ∧
        x.store.add? blob = some ((x.store.submit blob).2, id) ∧
        ofHistory (requests ++ [blob]) = ⟨(x.store.submit blob).2, x.taken ++ [blob]⟩ := by
  intro x
  have hx : x.Sound := sound_ofHistory requests
  have htotal : x.store.byteCount = (x.taken.map List.length).sum := hx.byteCount
  refine ⟨htotal, hx.blob?_eq, fun i => ?_, fun blob => ?_⟩
  · rw [hx.offset?_eq]
    split
    · next hi => rw [List.getElem?_eq_getElem hi]; rfl
    · next hi => rw [List.getElem?_eq_none (Nat.le_of_not_lt hi)]; rfl
  · rw [← htotal, ← BlobStore.add?_eq_none_iff, ofHistory_concat]
    obtain ⟨hadd, hsubmit, hsame⟩ | ⟨s, id, hadd, hsubmit, hnext⟩ := x.step_cases blob
    · rw [hadd, hsubmit]
      exact ⟨by simp, fun _ => ⟨rfl, rfl, hsame⟩, nofun⟩
    · rw [hadd, hsubmit]
      refine ⟨by simp, nofun, ?_⟩
      rintro _ ⟨⟩
      refine ⟨fun hcount => ?_, rfl, hnext⟩
      obtain ⟨-, -, -, rfl⟩ := BlobStore.add?_eq_some hadd
      rw [hx.count]
      exact UInt32.toNat_ofNat_of_lt' hcount

/-- Behind a blob that fills the store, a byte is refused and an empty blob is taken. -/
theorem taken_full {full : Bytes} (hfull : full.length = BlobStore.limit) :
    (ofHistory [full, [98], []]).taken = [full, []] := by
  have htotal : ∀ {x : Intake}, x.taken = [full] → x.total = BlobStore.limit := fun {x} hx => by
    rw [total, hx, List.map_singleton, List.sum_singleton, hfull]
  have hfirst : (ofHistory [full]).taken = [full] := by
    have hroom : (ofHistory []).total + full.length ≤ BlobStore.limit := by
      rw [hfull]
      exact Nat.le_of_eq (Nat.zero_add _)
    exact (taken_concat [] full).trans (if_pos hroom)
  have hsecond : (ofHistory [full, [98]]).taken = [full] := by
    have hnone : ¬ (ofHistory [full]).total + 1 ≤ BlobStore.limit := by
      rw [htotal hfirst]; exact Nat.not_succ_le_self _
    exact ((taken_concat [full] [98]).trans (if_neg hnone)).trans hfirst
  have hroom : (ofHistory [full, [98]]).total + 0 ≤ BlobStore.limit := Nat.le_of_eq (htotal hsecond)
  exact ((taken_concat [full, [98]] []).trans (if_pos hroom)).trans (congrArg (· ++ [[]]) hsecond)

/-- One blob fills the store. The byte behind it is refused; an empty blob still finds room, behind
all bytes. What is refused then leaves the store as it was. -/
theorem full_blobs : ∃ full : Bytes, full.length = BlobStore.limit ∧
    let x := ofHistory [full, [98], []]
    x.taken = [full, []] ∧ x.store.byteCount = BlobStore.limit ∧ x.store.blob? 1 = some [] ∧
      (x.store.offset? 1).map UInt32.toNat = some BlobStore.limit ∧ x.store.blob? 2 = none ∧
      (x.store.submit [99]).1 = none ∧ (x.store.submit [99]).2 = x.store := by
  obtain ⟨full, hfull⟩ : ∃ full : Bytes, full.length = BlobStore.limit :=
    ⟨List.replicate BlobStore.limit 97, List.length_replicate⟩
  refine ⟨full, hfull, ?_⟩
  intro x
  have hsum : ([full, []].map List.length).sum = BlobStore.limit := by simp [hfull]
  obtain ⟨hbytes, hblob, hoffset, hnext⟩ := blobs_exact [full, [98], []]
  rw [taken_full hfull] at hbytes hblob hoffset hnext
  rw [hsum] at hbytes hnext
  have hrefused : (x.store.submit [99]).1 = none := (hnext [99]).1.mpr (Nat.lt_succ_self _)
  exact ⟨taken_full hfull, hbytes, hblob 1, (hoffset 1).trans (congrArg some hsum), hblob 2,
    hrefused, ((hnext [99]).2.1 hrefused).2.1⟩

end Intake

end ShaderPack
