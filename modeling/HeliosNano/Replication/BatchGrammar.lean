import HeliosNano.Foundation.Octets
import HeliosNano.Replication.WalRecords

namespace HeliosNano.Replication
open Foundation Storage List Except.ok

/-- A slice after its length, in five groups at most. -/
def IsSlice (s bytes : Bytes) : Prop :=
  ∃ len, IsVarint len s.length ∧ len.length ≤ 5 ∧ s.length < 2^32 ∧ bytes = len ++ s

def encodeSlice (s : Bytes) : Bytes := varint s.length ++ s

inductive Operation
  | put (key value : Bytes)
  | delete (key : Bytes)
  | singleDelete (key : Bytes)
  | logData (blob : Bytes)
  | deleteRange (first last : Bytes)
deriving DecidableEq, Repr

namespace Operation

def tag : Operation → Byte
  | delete _ => 0
  | put .. => 1
  | logData _ => 3
  | singleDelete _ => 7
  | deleteRange .. => 15

def slices : Operation → List Bytes
  | put key value => [key,value]
  | delete key | singleDelete key => [key]
  | logData blob => [blob]
  | deleteRange first last => [first,last]

def record : Operation → Record
  | put key value => .put key value
  | delete key | singleDelete key => .delete key
  | logData _ => .logData
  | deleteRange first last => .deleteRange first last

def Spares : Operation → Prop
  | put key _ | delete key | singleDelete key => key ≠ cursorKey
  | logData _ => True
  | deleteRange first last => ¬ (first ≤ cursorKey ∧ cursorKey < last)

/-- A range does not end before it starts. -/
def Ordered : Operation → Prop
  | deleteRange first last => first ≤ last
  | _ => True

def Supported (o : Operation) : Prop := o.Spares ∧ o.Ordered

def counted (o : Operation) : Nat := o.record.counted

def IsEncoded (o : Operation) (bytes : Bytes) : Prop := ∃ body, Joined IsSlice o.slices body ∧ bytes = o.tag::body

def encode (o : Operation) : Bytes := o.tag :: o.slices.flatMap encodeSlice

end Operation
open Operation

/-- A batch of `n` operations that consume a sequence number, all of them permitted. -/
def IsBatch (permitted : Operation → Prop) (raw : Bytes) (n : Nat) : Prop :=
  raw.length ≤ maxBatchBytes ∧ 1 ≤ n ∧ n ≤ maxBatchOperations ∧
    ∃ seq count operations body, seq.length = 8 ∧ count.length = 4 ∧ leValue count = n ∧
      Joined IsEncoded operations body ∧ (∀ o ∈ operations, permitted o) ∧
      (operations.map counted).sum = n ∧ raw = seq ++ count ++ body

def encodeBatch (seq : Nat) (operations : List Operation) : Bytes :=
  WalStore.leBytes 8 seq ++ WalStore.leBytes 4 (operations.map counted).sum ++ operations.flatMap encode

structure OperationBatch where
  seq : Nat
  operations : List Operation
  supported : ∀ o ∈ operations, o.Supported
  counts : 1 ≤ (operations.map counted).sum ∧ (operations.map counted).sum ≤ maxBatchOperations
  fits : (encodeBatch seq operations).length ≤ maxBatchBytes

section
variable {input rest s : Bytes} {n acc : Nat}

theorem groups_cons_iff {b : Byte} {tl : Bytes} {k B p : Nat} :
    (∃ len v, IsVarint len v ∧ len.length ≤ k+1 ∧ v < B ∧ b::tl = len ++ rest ∧ n = acc+v*p) ↔
      if b.val < 128 then b.val < B ∧ tl = rest ∧ n = acc+b.val*p
      else ∃ len v, IsVarint len v ∧ len.length ≤ k ∧ b.val%128+128*v < B ∧ tl = len ++ rest ∧
        n = acc+(b.val%128+128*v)*p := by
  constructor
  · rintro ⟨_ | ⟨c,len⟩,v,hv,hl,hB,hi,rfl⟩
    · exact hv.elim
    · obtain ⟨rfl,rfl⟩ := cons.inj hi
      rw [IsVarint] at hv
      split at hv
      · next hb =>
        obtain ⟨rfl,rfl⟩ := hv
        rw [if_pos hb]
        exact ⟨hB,rfl,rfl⟩
      · next hb =>
        obtain ⟨m,rfl,hm⟩ := hv
        rw [if_neg hb]
        exact ⟨len,m,hm,Nat.le_of_succ_le_succ hl,hB,rfl,rfl⟩
  · intro h
    split at h
    · next hb =>
      obtain ⟨hB,rfl,rfl⟩ := h
      exact ⟨[b],b.val,by rw [IsVarint,if_pos hb]; exact ⟨rfl,rfl⟩,Nat.le_add_left 1 k,hB,rfl,rfl⟩
    · next hb =>
      obtain ⟨len,m,hm,hl,hB,rfl,rfl⟩ := h
      exact ⟨b::len,b.val%128+128*m,by rw [IsVarint,if_neg hb]; exact ⟨m,rfl,hm⟩,Nat.succ_le_succ hl,hB,rfl,rfl⟩

/-- By induction on the groups that may follow; the last of the five has four bits. -/
theorem takeLength_iff (k : Nat) (hk : k ≤ 5) : takeLength (range' (35-7 * k) k 7) input acc = .ok (n,rest) ↔
    ∃ len v, IsVarint len v ∧ len.length ≤ k ∧ v < 2^(7*k-3) ∧ input = len ++ rest ∧ n = acc+v*2^(35-7 * k) := by
  induction k generalizing input acc with
  | zero =>
    simp only [range'_zero,takeLength,reduceCtorEq,false_iff]
    rintro ⟨len,v,hv,hl,-⟩
    rw [eq_nil_of_length_eq_zero (Nat.le_zero.mp hl)] at hv
    exact hv
  | succ k ih =>
    have hs : 35-7 * (k+1)+7 = 35-7 * k := by omega
    have hp : 2^(35-7 * k) = 128*2^(35-7 * (k+1)) := by
      rw [← hs,Nat.pow_add,Nat.mul_comm]
    match input with
    | [] =>
      simp only [range'_succ,takeLength,reduceCtorEq,false_iff]
      rintro ⟨len,v,hv,-,-,hi,-⟩
      rw [(append_eq_nil_iff.mp hi.symm).1] at hv
      exact hv
    | b::tl =>
      rw [range'_succ,takeLength,hs,groups_cons_iff]
      cases k with
      | zero =>
        -- The last group: nothing may follow, and it has four bits.
        split
        · next hov =>
          have hn : ¬ b.val < 2^(7*(0+1)-3) := Nat.not_lt.mpr hov.2
          simp only [reduceCtorEq,false_iff]
          split
          · exact fun h => hn h.1
          · rintro ⟨len,v,hv,hl,-⟩
            rw [eq_nil_of_length_eq_zero (Nat.le_zero.mp hl)] at hv
            exact hv
        · next hov =>
          dsimp only
          split
          · next hb =>
            rw [Nat.mod_eq_of_lt hb]
            simp only [injEq,Prod.mk.injEq]
            have hB : b.val < 2^(7*(0+1)-3) := by omega
            exact ⟨fun h => ⟨hB,h.2,h.1.symm⟩,fun h => ⟨h.2.2.symm,h.2.1⟩⟩
          · simp only [range'_zero,takeLength,reduceCtorEq,false_iff]
            rintro ⟨len,v,hv,hl,-⟩
            rw [eq_nil_of_length_eq_zero (Nat.le_zero.mp hl)] at hv
            exact hv
      | succ k =>
        have hB : 2^(7*(k+1+1)-3) = 128*2^(7*(k+1)-3) := by
          rw [show 7*(k+1+1)-3 = 7*(k+1)-3 + 7 by omega,Nat.pow_add,Nat.mul_comm]
        have hpos : 0 < 2^(7*(k+1)-3) := Nat.two_pow_pos _
        rw [if_neg (by omega)]
        dsimp only
        split
        · next hb =>
          rw [Nat.mod_eq_of_lt hb]
          simp only [injEq,Prod.mk.injEq]
          exact ⟨fun h => ⟨by omega,h.2,h.1.symm⟩,fun h => ⟨h.2.2.symm,h.2.1⟩⟩
        · have hmod := Nat.mod_lt b.val (by decide : 0 < 128)
          rw [ih (by omega),hB,hp]
          refine exists_congr fun len => exists_congr fun v => and_congr_right fun _ => and_congr_right fun _ => ?_
          rw [show v*(128*2^(35-7 * (k+1+1))) = 128*v*2^(35-7 * (k+1+1)) by
            rw [Nat.mul_comm 128 v,Nat.mul_assoc],Nat.add_assoc,← Nat.add_mul]
          exact and_congr_left fun _ => ⟨fun h => by omega,fun h => by omega⟩

theorem takeSlice_iff : takeSlice input = .ok (s,rest) ↔ ∃ part, IsSlice s part ∧ input = part ++ rest := by
  have ht {r : Nat × Bytes} : takeLength [0,7,14,21,28] input 0 = .ok r ↔
      ∃ len, IsVarint len r.1 ∧ len.length ≤ 5 ∧ r.1 < 2^32 ∧ input = len ++ r.2 := by
    refine (takeLength_iff 5 le_rfl).trans ?_
    simp
  simp only [takeSlice,bind_eq_ok,ht]
  constructor
  · rintro ⟨⟨n,more⟩,⟨len,hv,hl,hn,rfl⟩,h⟩
    dsimp only at *
    split at h
    · cases h
    next hlt =>
    rw [splitAt_eq] at h
    obtain ⟨rfl,rfl⟩ := Prod.mk.inj (inj h)
    have htk : (more.take n).length = n := length_take_of_le (not_lt.mp hlt)
    refine ⟨len ++ more.take n,⟨len,?_,hl,?_,rfl⟩,?_⟩
    · rwa [htk]
    · rwa [htk]
    · rw [append_assoc,take_append_drop]
  · rintro ⟨_,⟨len,hv,hl,hn,rfl⟩,rfl⟩
    refine ⟨(s.length,s ++ rest),⟨len,hv,hl,hn,append_assoc ..⟩,?_⟩
    rw [if_neg (by rw [length_append]; omega),splitAt_eq,take_left,drop_left]

/-- The slices stand one after the other in front of the rest. -/
def ReadAs (slices : List Bytes) (input rest : Bytes) : Prop := ∃ part, Joined IsSlice slices part ∧ input = part ++ rest

theorem readAs_nil_iff : ReadAs [] input rest ↔ input = rest := by
  simp [ReadAs,joined_nil_iff]

theorem readAs_cons_iff {slices : List Bytes} :
    ReadAs (s::slices) input rest ↔ ∃ mid, takeSlice input = .ok (s,mid) ∧ ReadAs slices mid rest := by
  constructor
  · rintro ⟨_,h,rfl⟩
    obtain ⟨part,more,hs,hm,rfl⟩ := joined_cons_iff.mp h
    exact ⟨more ++ rest,takeSlice_iff.mpr ⟨part,hs,append_assoc ..⟩,more,hm,rfl⟩
  · rintro ⟨_,h,more,hm,rfl⟩
    obtain ⟨part,hs,rfl⟩ := takeSlice_iff.mp h
    exact ⟨part ++ more,joined_cons_iff.mpr ⟨part,more,hs,hm,rfl⟩,(append_assoc ..).symm⟩

theorem checkSourceKey_eq_ok_iff {key : Bytes} : checkSourceKey key = .ok () ↔ key ≠ cursorKey := by
  rw [checkSourceKey]
  split <;> simp_all

end

section
variable {input rest : Bytes} {records : List Record}

theorem readRecord_iff {tag : Byte} {record : Record} : readRecord tag input = .ok (record,rest) ↔
    ∃ o : Operation, o.tag = tag ∧ ReadAs o.slices input rest ∧ o.Supported ∧ o.record = record := by
  constructor
  · intro h
    rw [readRecord] at h
    split at h
    · next ht =>
      obtain ⟨⟨key,mid⟩,hk,h⟩ := bind_eq_ok.mp h
      obtain ⟨⟨⟩,hs,h⟩ := bind_eq_ok.mp h
      obtain ⟨rfl,rfl⟩ := Prod.mk.inj (inj h)
      have hr : ReadAs [key] input mid := readAs_cons_iff.mpr ⟨mid,hk,readAs_nil_iff.mpr rfl⟩
      have hc := checkSourceKey_eq_ok_iff.mp hs
      rcases ht with ht | ht
      · exact ⟨.delete key,Fin.ext ht.symm,hr,⟨hc,trivial⟩,rfl⟩
      · exact ⟨.singleDelete key,Fin.ext ht.symm,hr,⟨hc,trivial⟩,rfl⟩
    split at h
    · next ht =>
      obtain ⟨⟨key,mid⟩,hk,h⟩ := bind_eq_ok.mp h
      obtain ⟨⟨⟩,hs,h⟩ := bind_eq_ok.mp h
      obtain ⟨⟨value,more⟩,hv,h⟩ := bind_eq_ok.mp h
      obtain ⟨rfl,rfl⟩ := Prod.mk.inj (inj h)
      exact ⟨.put key value,Fin.ext ht.symm,readAs_cons_iff.mpr ⟨mid,hk,readAs_cons_iff.mpr ⟨more,hv,readAs_nil_iff.mpr rfl⟩⟩,
        ⟨checkSourceKey_eq_ok_iff.mp hs,trivial⟩,rfl⟩
    split at h
    · next ht =>
      obtain ⟨⟨blob,mid⟩,hb,h⟩ := bind_eq_ok.mp h
      obtain ⟨rfl,rfl⟩ := Prod.mk.inj (inj h)
      exact ⟨.logData blob,Fin.ext ht.symm,readAs_cons_iff.mpr ⟨mid,hb,readAs_nil_iff.mpr rfl⟩,⟨trivial,trivial⟩,rfl⟩
    split at h
    · next ht =>
      obtain ⟨⟨first,mid⟩,hf,h⟩ := bind_eq_ok.mp h
      obtain ⟨⟨last,more⟩,hl,h⟩ := bind_eq_ok.mp h
      dsimp only at h
      split at h
      · cases h
      next hn =>
      obtain ⟨rfl,rfl⟩ := Prod.mk.inj (inj h)
      obtain ⟨hlt,hc⟩ := not_or.mp hn
      exact ⟨.deleteRange first last,Fin.ext ht.symm,
        readAs_cons_iff.mpr ⟨mid,hf,readAs_cons_iff.mpr ⟨more,hl,readAs_nil_iff.mpr rfl⟩⟩,⟨hc,not_lt.mp hlt⟩,rfl⟩
    · cases h
  · rintro ⟨o,rfl,hr,⟨hs,ho⟩,rfl⟩
    cases o with
    | delete key | singleDelete key =>
      obtain ⟨mid,hk,hr⟩ := readAs_cons_iff.mp hr
      cases readAs_nil_iff.mp hr
      simp [readRecord,tag,Operation.record,hk,checkSourceKey_eq_ok_iff.mpr hs,bind,Except.bind]
    | logData blob =>
      obtain ⟨mid,hb,hr⟩ := readAs_cons_iff.mp hr
      cases readAs_nil_iff.mp hr
      simp [readRecord,tag,Operation.record,hb,bind,Except.bind]
    | put key value =>
      obtain ⟨mid,hk,hr⟩ := readAs_cons_iff.mp hr
      obtain ⟨more,hv,hr⟩ := readAs_cons_iff.mp hr
      cases readAs_nil_iff.mp hr
      simp [readRecord,tag,Operation.record,hk,hv,checkSourceKey_eq_ok_iff.mpr hs,bind,Except.bind]
    | deleteRange first last =>
      obtain ⟨mid,hf,hr⟩ := readAs_cons_iff.mp hr
      obtain ⟨more,hl,hr⟩ := readAs_cons_iff.mp hr
      cases readAs_nil_iff.mp hr
      have hn : ¬ (last < first ∨ first ≤ cursorKey ∧ cursorKey < last) := not_or.mpr ⟨not_lt.mpr ho,hs⟩
      simp only [readRecord,tag,Operation.record,hf,hl,bind,Except.bind,if_neg hn]
      rfl

theorem joined_encoded_nil_iff {operations : List Operation} : Joined IsEncoded operations [] ↔ operations = [] := by
  cases operations with
  | nil => simp [joined_nil_iff]
  | cons o operations => simp [joined_cons_iff,IsEncoded]

variable {count fuel observed : Nat}

theorem readRecords_nil_iff : readRecords count fuel [] observed = .ok records ↔ observed = count ∧ records = [] := by
  rw [readRecords]
  split
  · next hne => simp [hne]
  · next heq => simp [not_not.mp heq,eq_comm]

/-- By induction on the fuel, which is at least the number of bytes. -/
theorem readRecords_iff (hf : input.length ≤ fuel) :
    readRecords count fuel input observed = .ok records ↔ ∃ operations, Joined IsEncoded operations input ∧
      (∀ o ∈ operations, o.Supported) ∧ observed + (operations.map counted).sum = count ∧
      operations.map Operation.record = records := by
  induction fuel generalizing input observed records with
  | zero =>
    cases eq_nil_of_length_eq_zero (Nat.le_zero.mp hf)
    rw [readRecords_nil_iff]
    simp [joined_encoded_nil_iff,eq_comm]
  | succ fuel ih =>
    cases input with
    | nil =>
      rw [readRecords_nil_iff]
      simp [joined_encoded_nil_iff,eq_comm]
    | cons tag input =>
      simp only [readRecords,bind_eq_ok]
      constructor
      · rintro ⟨⟨record,more⟩,hr,h⟩
        dsimp only at h
        split at h
        · cases h
        obtain ⟨rs,hrs,h⟩ := bind_eq_ok.mp h
        cases h
        obtain ⟨o,rfl,⟨part,hp,rfl⟩,hs,rfl⟩ := readRecord_iff.mp hr
        have hle : more.length ≤ fuel := by
          rw [length_cons,length_append] at hf
          omega
        obtain ⟨os,hj,hall,hsum,rfl⟩ := (ih hle).mp hrs
        refine ⟨o::os,joined_cons_iff.mpr ⟨o.tag::part,more,⟨part,hp,rfl⟩,hj,rfl⟩,forall_mem_cons.mpr ⟨hs,hall⟩,?_,rfl⟩
        rw [map_cons,sum_cons,← Nat.add_assoc]
        exact hsum
      · rintro ⟨_ | ⟨o,os⟩,hj,hall,hsum,rfl⟩
        · cases joined_nil_iff.mp hj
        obtain ⟨_,more,⟨part,hp,rfl⟩,hm,heq⟩ := joined_cons_iff.mp hj
        obtain ⟨rfl,hi⟩ : tag = o.tag ∧ input = part ++ more := cons.inj heq
        subst hi
        obtain ⟨hs,hall⟩ := forall_mem_cons.mp hall
        rw [map_cons,sum_cons,← Nat.add_assoc] at hsum
        have hle : more.length ≤ fuel := by
          rw [length_cons,length_append] at hf
          omega
        refine ⟨(o.record,more),readRecord_iff.mpr ⟨o,rfl,⟨part,hp,rfl⟩,hs,rfl⟩,?_⟩
        dsimp only
        rw [if_neg (Nat.not_lt.mpr (hsum ▸ Nat.le_add_right ..)),bind_eq_ok]
        exact ⟨os.map Operation.record,(ih hle).mpr ⟨os,hm,hall,hsum,rfl⟩,rfl⟩

end

section

theorem validateRawBatch_eq_ok_iff {raw : Bytes} {n : Nat} :
    (∃ records, validateRawBatch raw = .ok (n,records)) ↔ IsBatch Supported raw n := by
  constructor
  · rintro ⟨records,h⟩
    rw [validateRawBatch] at h
    split at h
    · cases h
    next hraw =>
    dsimp only at h
    split at h
    · cases h
    next hc =>
    obtain ⟨rs,hrs,h⟩ := bind_eq_ok.mp h
    obtain ⟨rfl,rfl⟩ := Prod.mk.inj (inj h)
    obtain ⟨os,hj,hall,hsum,-⟩ := (readRecords_iff (by rw [length_drop]; omega)).mp hrs
    refine ⟨by omega,by omega,by omega,raw.take 8,(raw.drop 8).take 4,os,raw.drop 12,?_,?_,rfl,hj,hall,?_,?_⟩
    · rw [length_take]
      omega
    · rw [length_take,length_drop]
      omega
    · rwa [Nat.zero_add] at hsum
    · rw [show raw.drop 12 = (raw.drop 8).drop 4 by rw [drop_drop],append_assoc,take_append_drop,take_append_drop]
  · rintro ⟨hraw,h1,hmax,seq,count,os,body,hs,hc,rfl,hj,hall,hsum,rfl⟩
    refine ⟨os.map Operation.record,?_⟩
    have hlen : (seq ++ count ++ body).length = 12+body.length := by
      rw [length_append,length_append,hs,hc]
    have hcount : ((seq ++ count ++ body).drop 8).take 4 = count := by
      rw [append_assoc,drop_left' hs,take_left' hc]
    have hbody : (seq ++ count ++ body).drop 12 = body := drop_left' (by rw [length_append,hs,hc])
    rw [validateRawBatch,if_neg (by omega)]
    dsimp only
    rw [hcount,hbody,if_neg (by omega),bind_eq_ok]
    exact ⟨_,(readRecords_iff (by omega)).mpr ⟨os,hj,hall,by rw [Nat.zero_add]; exact hsum,rfl⟩,rfl⟩

theorem isSlice_encodeSlice {s : Bytes} (h : (encodeSlice s).length < 2^32) : IsSlice s (encodeSlice s) := by
  have hl : s.length < 2^32 := by
    rw [encodeSlice,length_append] at h
    omega
  exact ⟨varint s.length,isVarint_varint _,length_varint_le 4 _ (by omega),hl,rfl⟩

theorem isEncoded_encode {o : Operation} (h : o.encode.length < 2^32) : o.IsEncoded o.encode := by
  refine ⟨_,joined_flatMap fun s hs => isSlice_encodeSlice ?_,rfl⟩
  have hl := length_le_length_flatMap (f := encodeSlice) hs
  rw [encode,length_cons] at h
  omega

theorem OperationBatch.isBatch (b : OperationBatch) :
    IsBatch Supported (encodeBatch b.seq b.operations) (b.operations.map counted).sum := by
  have hlt : (b.operations.map counted).sum < 256^4 := lt_of_le_of_lt b.counts.2 (by decide)
  refine ⟨b.fits,b.counts.1,b.counts.2,_,_,b.operations,_,WalStore.length_leBytes ..,WalStore.length_leBytes ..,
    WalStore.leValue_leBytes hlt,joined_flatMap fun o ho => isEncoded_encode ?_,b.supported,rfl,rfl⟩
  have hle := length_le_length_flatMap (f := encode) ho
  have hf := b.fits
  rw [encodeBatch,length_append] at hf
  have hmax : maxBatchBytes < 2^32 := by decide
  omega

end
end HeliosNano.Replication
