import HeliosNano.Foundation.OrderedStore
import HeliosNano.Storage.Art.Iterator
import Mathlib.Algebra.Order.BigOperators.Group.List
import Mathlib.Algebra.Order.Ring.Nat

namespace HeliosNano.Storage.Art
open Foundation Foundation.Multimap List ArtNode ArtIterator

/-- A bound of a range and whether it is in the range; `none` is no bound. -/
abbrev Bound := Option (Bytes × Bool)

def keyInRange (key : Bytes) (lower upper : Bound) : Bool :=
  if lower.any fun (bound,inclusive) => decide (key < bound ∨ key = bound ∧ inclusive = false) then false
  else !upper.any fun (bound,inclusive) => decide (bound < key ∨ key = bound ∧ inclusive = false)

def prefixMayIntersect (keyPrefix : Bytes) (lower upper : Bound) : Bool :=
  if lower.any fun (bound,_) =>
      let m := min keyPrefix.length bound.length
      decide (keyPrefix.take m < bound.take m) then false
  else
    !upper.any fun (bound,inclusive) =>
      let m := min keyPrefix.length bound.length
      decide (bound.take m < keyPrefix.take m ∨ keyPrefix.take m = bound.take m ∧
        (bound.length < keyPrefix.length ∨ keyPrefix.length = bound.length ∧ inclusive = false))

section
variable {p q b k : Bytes} {lower upper : Bound}

theorem le_append (p q : Bytes) : p ≤ p ++ q := by
  have hn : [] ≤ q := not_lt.mp (not_lt_nil q)
  have h : p ++ [] ≤ p ++ q := (append_le_append_left_iff p).mpr hn
  rwa [append_nil] at h

theorem le_of_isPrefix (h : p <+: q) : p ≤ q := by
  obtain ⟨rest,rfl⟩ := h
  exact le_append p rest

theorem append_lt_of_lt (h : p < b) (hno : ¬p <+: b) (q : Bytes) : p ++ q < b := by
  have hle : p ++ [] ≤ b := by
    rw [append_nil]
    exact le_of_lt h
  exact lt_of_append_le_of_not_prefix hle hno q

theorem take_min_eq_iff : p.take (min p.length q.length) = q.take (min p.length q.length) ↔ p <+: q ∨ q <+: p := by
  constructor
  · intro h
    rcases Nat.le_total p.length q.length with hle | hle
    · rw [Nat.min_eq_left hle,take_length] at h
      exact .inl (h ▸ take_prefix _ _)
    · rw [Nat.min_eq_right hle,take_length] at h
      exact .inr (h ▸ take_prefix _ _)
  · rintro (⟨rest,rfl⟩ | ⟨rest,rfl⟩)
    · rw [length_append,Nat.min_eq_left (Nat.le_add_right _ _),take_length,take_left]
    · rw [length_append,Nat.min_eq_right (Nat.le_add_right _ _),take_length,take_left]

theorem lt_of_take_lt (h : p.take (min p.length q.length) < q.take (min p.length q.length)) : p < q := by
  have hl : (p.take (min p.length q.length)).length = (q.take (min p.length q.length)).length := by
    rw [length_take,length_take]
    omega
  have ha := append_lt_append_of_lt hl h (p.drop (min p.length q.length)) (q.drop (min p.length q.length))
  rwa [take_append_drop,take_append_drop] at ha

theorem take_lt_iff : p.take (min p.length q.length) < q.take (min p.length q.length) ↔ p < q ∧ ¬p <+: q := by
  constructor
  · intro h
    refine ⟨lt_of_take_lt h,fun hp => ?_⟩
    rw [take_min_eq_iff.mpr (.inl hp)] at h
    exact lt_irrefl _ h
  · rintro ⟨hlt,hno⟩
    rcases lt_trichotomy (p.take (min p.length q.length)) (q.take (min p.length q.length)) with h | h | h
    · exact h
    · have hq : q <+: p := (take_min_eq_iff.mp h).resolve_left hno
      exact absurd hlt (not_lt.mpr (le_of_isPrefix hq))
    · rw [Nat.min_comm] at h
      exact absurd hlt (not_lt.mpr (le_of_lt (lt_of_take_lt h)))

theorem tests_iff (f g : Bytes × Bool → Bool) : (if lower.any f then false else !upper.any g) = true ↔
    (∀ l ∈ lower, f l = false) ∧ ∀ u ∈ upper, g u = false := by
  cases lower <;> cases upper <;> simp [-Prod.forall]

theorem keyInRange_iff : keyInRange k lower upper = true ↔
    (∀ l ∈ lower, l.1 < k ∨ k = l.1 ∧ l.2 = true) ∧ ∀ u ∈ upper, k < u.1 ∨ k = u.1 ∧ u.2 = true := by
  unfold keyInRange
  rw [tests_iff]
  refine and_congr (forall₂_congr fun l _ => ?_) (forall₂_congr fun u _ => ?_)
  · obtain ⟨bound,inclusive⟩ := l
    rw [decide_eq_false_iff_not]
    rcases lt_trichotomy k bound with h | rfl | h
    · simp [h,h.not_gt,h.ne]
    · simp
    · simp [h,h.not_gt,h.ne']
  · obtain ⟨bound,inclusive⟩ := u
    rw [decide_eq_false_iff_not]
    rcases lt_trichotomy k bound with h | rfl | h
    · simp [h,h.not_gt,h.ne]
    · simp
    · simp [h,h.not_gt,h.ne']

theorem prefixMayIntersect_iff : prefixMayIntersect p lower upper = true ↔
    (∀ l ∈ lower, ¬(p < l.1 ∧ ¬p <+: l.1)) ∧ ∀ u ∈ upper, p < u.1 ∨ p = u.1 ∧ u.2 = true := by
  unfold prefixMayIntersect
  rw [tests_iff]
  refine and_congr (forall₂_congr fun l _ => ?_) (forall₂_congr fun u _ => ?_)
  · obtain ⟨bound,inclusive⟩ := l
    rw [decide_eq_false_iff_not,take_lt_iff]
  · obtain ⟨bound,inclusive⟩ := u
    have hc : bound.take (min p.length bound.length) < p.take (min p.length bound.length) ↔ bound < p ∧ ¬bound <+: p := by
      rw [Nat.min_comm]
      exact take_lt_iff
    rw [decide_eq_false_iff_not,hc,take_min_eq_iff]
    by_cases hp : p <+: bound
    · -- Keys that start with the bound's own start may still be in the range.
      by_cases hsame : p = bound
      · subst hsame
        simp
      · have hsh : p.length < bound.length := lt_of_le_of_ne hp.length_le fun h => hsame (hp.eq_of_length h)
        have hlt : p < bound := lt_of_le_of_ne (le_of_isPrefix hp) hsame
        simp [hlt,hlt.not_gt,hsh.not_gt,hsh.ne]
    · have hne : p ≠ bound := fun h => hp (h ▸ prefix_rfl)
      by_cases hb : bound <+: p
      · have hsh : bound.length < p.length := lt_of_le_of_ne hb.length_le fun h => hne (hb.eq_of_length h).symm
        have hlt : bound < p := lt_of_le_of_ne (le_of_isPrefix hb) hne.symm
        simp [hb,hsh,hlt.not_gt,hne]
      · rcases lt_trichotomy p bound with h | h | h
        · simp [hp,hb,h,h.not_gt]
        · exact absurd h hne
        · simp [hb,h,h.not_gt,hne]

theorem mayIntersect_of_inRange (h : keyInRange k lower upper = true) (hp : p <+: k) :
    prefixMayIntersect p lower upper = true := by
  obtain ⟨hlw,hup⟩ := keyInRange_iff.mp h
  obtain ⟨rest,rfl⟩ := hp
  refine prefixMayIntersect_iff.mpr ⟨fun l hl ⟨hlt,hno⟩ => ?_,fun u hu => ?_⟩
  · have hb : p ++ rest < l.1 := append_lt_of_lt hlt hno rest
    rcases hlw l hl with h | ⟨h,-⟩
    · exact lt_asymm hb h
    · exact hb.ne h
  · have hle : p ≤ p ++ rest := le_append p rest
    rcases hup u hu with h | ⟨h,hi⟩
    · exact .inl (lt_of_le_of_lt hle h)
    · rw [h] at hle
      exact (lt_or_eq_of_le hle).imp_right fun heq => ⟨heq,hi⟩

/-- A bound that does not go on from a key compares alike with all that go on from it. -/
def Decides (stem : Bytes) (bound : Bound) : Prop := ∀ b ∈ bound, stem <+: b.1 → stem = b.1
deriving Decidable

variable {stem : Bytes}

theorem lt_iff_of_stem (hb : stem <+: b → stem = b) (hp : stem <+: p) (hne : stem ≠ p) :
    (p < b ↔ stem < b) ∧ p ≠ b ∧ ¬p <+: b := by
  have hno : ¬p <+: b := fun h => by
    have hs := hb (hp.trans h)
    rw [← hs] at h
    exact hne (hp.eq_of_length_le h.length_le)
  refine ⟨⟨fun h => lt_of_le_of_lt (le_of_isPrefix hp) h,fun h => ?_⟩,fun h => hno (h ▸ prefix_rfl),hno⟩
  obtain ⟨rest,rfl⟩ := hp
  exact append_lt_of_lt h (fun hs => h.ne (hb hs)) rest

theorem mayIntersect_eq_inRange (hlw : Decides stem lower) (hup : Decides stem upper)
    (hp : stem <+: p) (hpn : stem ≠ p) (hk : stem <+: k) (hke : stem ≠ k) :
    prefixMayIntersect p lower upper = keyInRange k lower upper := by
  rw [Bool.eq_iff_iff,prefixMayIntersect_iff,keyInRange_iff]
  refine and_congr (forall₂_congr fun l hl => ?_) (forall₂_congr fun u hu => ?_)
  · obtain ⟨hpl,-,hpo⟩ := lt_iff_of_stem (hlw l hl) hp hpn
    obtain ⟨hkl,hkn,-⟩ := lt_iff_of_stem (hlw l hl) hk hke
    simp only [hpo,not_false_eq_true,and_true,hkn,false_and,or_false]
    rw [hpl,← hkl,not_lt]
    exact ⟨fun h => lt_of_le_of_ne h hkn.symm,le_of_lt⟩
  · obtain ⟨hpl,hpb,-⟩ := lt_iff_of_stem (hup u hu) hp hpn
    obtain ⟨hkl,hkn,-⟩ := lt_iff_of_stem (hup u hu) hk hke
    simp only [hpb,hkn,false_and,or_false]
    rw [hpl,hkl]

end

namespace ArtNode
variable (lower upper : Bound)

def orderedChildren (n : Inner ArtNode) : List (Byte × ArtNode) := n.iterChildren.insertionSort fun a b => a.1 ≤ b.1

theorem orderedChildren_perm (n : Inner ArtNode) : (orderedChildren n).Perm n.iterChildren := perm_insertionSort _ _

def rangeItems (keyPrefix : Bytes) : ArtNode → List (Bytes × RowId)
  | .leaf node => if keyInRange node.key lower upper then node.allValues.map fun v => (node.key,v) else []
  | .inner n =>
    let key := nodeKey keyPrefix n
    if prefixMayIntersect key lower upper && keyInRange key lower upper then n.header.values.map fun v => (key,v) else []

/-- What it puts on the stack: nothing when the whole subtree is pruned. -/
def rangeFrames (keyPrefix : Bytes) : ArtNode → List (ArtNode × Bytes)
  | .leaf _ => []
  | .inner n =>
    let key := nodeKey keyPrefix n
    if prefixMayIntersect key lower upper then
      ((orderedChildren n).filter fun entry => prefixMayIntersect (key ++ [entry.1]) lower upper).map fun entry =>
        (entry.2,key ++ [entry.1])
    else []

theorem weight_rangeFrames_lt (keyPrefix : Bytes) (node : ArtNode) :
    stackWeight (node.rangeFrames lower upper keyPrefix) < node.weight := by
  rw [weight_eq keyPrefix]
  suffices hle : stackWeight (node.rangeFrames lower upper keyPrefix) ≤
      stackWeight (node.frames keyPrefix) by omega
  cases node with
  | leaf leaf => exact Nat.le_refl _
  | inner n =>
    unfold rangeFrames
    dsimp only
    split
    · have hp : (orderedChildren n).Perm n.sortedChildren := (orderedChildren_perm n).trans n.sortedChildren_perm.symm
      have hs : stackWeight ((inner n).frames keyPrefix) = stackWeight
          ((orderedChildren n).map fun entry => (entry.2,nodeKey keyPrefix n ++ [entry.1])) := by
        rw [stackWeight,stackWeight,frames,map_map,map_map]
        exact ((hp.map _).sum_eq).symm
      rw [hs]
      exact ((filter_sublist.map _).map _).sum_le_sum fun _ _ => Nat.zero_le _
    · exact Nat.zero_le _

theorem weight_frame_lt {keyPrefix : Bytes} {node : ArtNode} {frame : ArtNode × Bytes}
    (h : frame ∈ node.rangeFrames lower upper keyPrefix) : frame.1.weight < node.weight := by
  have hle : frame.1.weight ≤ stackWeight (node.rangeFrames lower upper keyPrefix) :=
    single_le_sum (fun _ _ => Nat.zero_le _) _ (mem_map_of_mem h)
  exact Nat.lt_of_le_of_lt hle (weight_rangeFrames_lt lower upper keyPrefix node)

/-- The nodes that the scan takes off its stack, each with the key put together for it. -/
def rangeVisits (keyPrefix : Bytes) (node : ArtNode) : List (ArtNode × Bytes) :=
  (node,keyPrefix) :: (node.rangeFrames lower upper keyPrefix).attach.flatMap fun frame =>
    rangeVisits frame.1.2 frame.1.1
termination_by node.weight
decreasing_by exact weight_frame_lt lower upper frame.2

theorem rangeVisits_eq (keyPrefix : Bytes) (node : ArtNode) : node.rangeVisits lower upper keyPrefix = (node,keyPrefix) ::
      (node.rangeFrames lower upper keyPrefix).flatMap fun frame => frame.1.rangeVisits lower upper frame.2 := by
  rw [rangeVisits.eq_def]
  conv_rhs => rw [← attach_map_subtype_val (node.rangeFrames lower upper keyPrefix),flatMap_map]

/-- What the scan finds at and below a node when nothing stops it. -/
def rangeEntries (keyPrefix : Bytes) (node : ArtNode) : List (Bytes × RowId) :=
  (node.rangeVisits lower upper keyPrefix).flatMap fun visit => visit.1.rangeItems lower upper visit.2

theorem rangeEntries_eq (keyPrefix : Bytes) (node : ArtNode) :
    node.rangeEntries lower upper keyPrefix = node.rangeItems lower upper keyPrefix ++
      (node.rangeFrames lower upper keyPrefix).flatMap fun frame => frame.1.rangeEntries lower upper frame.2 := by
  rw [rangeEntries,rangeVisits_eq,flatMap_cons,flatMap_assoc]
  rfl

end ArtNode

def capReached (cap : Option Nat) (out : List (Bytes × RowId)) : Bool := cap.any fun n => decide (n ≤ out.length)

def pushCapped (cap : Option Nat) (out : List (Bytes × RowId)) : List (Bytes × RowId) → List (Bytes × RowId)
  | [] => out
  | item::rest => if capReached cap (out ++ [item]) then out ++ [item] else pushCapped cap (out ++ [item]) rest

def scanLoop (lower upper : Bound) (cap : Option Nat) (stack : List (ArtNode × Bytes)) (out : List (Bytes × RowId)) :
    List (Bytes × RowId) :=
  match stack with
  | [] => out
  | (node,keyPrefix)::stack =>
    if capReached cap out then out
    else
      scanLoop lower upper cap (node.rangeFrames lower upper keyPrefix ++ stack)
        (pushCapped cap out (node.rangeItems lower upper keyPrefix))
termination_by stackWeight stack
decreasing_by
  have hcons : stackWeight ((node,keyPrefix)::stack) = node.weight + stackWeight stack := by
    rw [stackWeight,map_cons,sum_cons]
    rfl
  rw [stackWeight_append,hcons]
  exact Nat.add_lt_add_right (weight_rangeFrames_lt lower upper keyPrefix node) _

def capped (cap : Option Nat) (entries : List (Bytes × RowId)) : List (Bytes × RowId) := cap.elim entries entries.take

variable {out : List (Bytes × RowId)} {cap : Option Nat}

theorem pushCapped_eq (ho : capReached cap out = false)
    (items : List (Bytes × RowId)) : pushCapped cap out items = capped cap (out ++ items) := by
  induction items generalizing out with
  | nil =>
    cases cap with
    | none => exact (append_nil out).symm
    | some n =>
      have hl : out.length < n := by simpa [capReached] using ho
      rw [append_nil]
      exact (take_of_length_le hl.le).symm
  | cons item rest ih =>
    rw [pushCapped]
    split
    next hf =>
      cases cap with
      | none => exact Bool.noConfusion hf
      | some n =>
        -- The item that reaches the capacity is the last one.
        have hl : out.length < n := by simpa [capReached] using ho
        have hge : n ≤ out.length+1 := by simpa [capReached] using hf
        have hln : (out ++ [item]).length = n := by
          rw [length_append,length_singleton]
          omega
        have hs : out ++ item::rest = out ++ [item] ++ rest := append_cons out item rest
        rw [hs]
        exact (take_left' hln).symm
    next hopen =>
      rw [ih (by simpa using hopen),append_assoc]
      rfl

theorem capped_append_of_capped {cap : Option Nat} (entries more : List (Bytes × RowId)) :
    capped cap (capped cap entries ++ more) = capped cap (entries ++ more) := by
  cases cap with
  | none => rfl
  | some n =>
    change (entries.take n ++ more).take n = (entries ++ more).take n
    rw [take_append,take_append,take_take,Nat.min_self,length_take]
    congr 2
    omega

theorem capped_capped (cap : Option Nat) (entries : List (Bytes × RowId)) :
    capped cap (capped cap entries) = capped cap entries := by
  have h := @capped_append_of_capped cap entries []
  rwa [append_nil,append_nil] at h

theorem scanLoop_eq (lower upper : Bound) (stack : List (ArtNode × Bytes)) (ho : capped cap out = out) :
    scanLoop lower upper cap stack out =
      capped cap (out ++ stack.flatMap fun frame => frame.1.rangeEntries lower upper frame.2) := by
  fun_induction scanLoop lower upper cap stack out with
  | case1 out => rw [flatMap_nil,append_nil,ho]
  | case2 out node keyPrefix stack hf =>
    cases cap with
    | none => exact Bool.noConfusion hf
    | some n =>
      have hge : n ≤ out.length := by simpa [capReached] using hf
      change out = (out ++ _).take n
      rw [take_append_of_le_length hge]
      exact ho.symm
  | case3 out node keyPrefix stack hopen ih =>
    have hp := pushCapped_eq (by simpa using hopen) (node.rangeItems lower upper keyPrefix)
    have hc : capped cap (pushCapped cap out (node.rangeItems lower upper keyPrefix)) =
        pushCapped cap out (node.rangeItems lower upper keyPrefix) := by
      rw [hp,capped_capped]
    rw [ih hc,hp,capped_append_of_capped,flatMap_append,flatMap_cons,node.rangeEntries_eq]
    simp only [append_assoc]

/-- Without a limit the capacity is `usize::MAX`, which no vector reaches. -/
def AdaptiveRadixTree.rangeScan (t : AdaptiveRadixTree) (lower upper : Bound) (limit : Option Nat) : List (Bytes × RowId) :=
  match t.root with
  | none => []
  | some root => if limit = some 0 then [] else scanLoop lower upper limit [(root,[])] []

theorem orderedChildren_eq (n : Inner ArtNode) : orderedChildren n = n.sortedChildren := by
  have hb : ∀ g : Byte → Option ArtNode, (iterBytes g).insertionSort (fun a b => a.1 ≤ b.1) = iterBytes g := by
    intro g
    refine List.Pairwise.insertionSort_eq (pairwise_filterMap.mpr ?_)
    refine (pairwise_lt_finRange 256).imp fun {a b} hab x hx y hy => ?_
    obtain ⟨child,-,rfl⟩ := Option.map_eq_some_iff.mp hx
    obtain ⟨child',-,rfl⟩ := Option.map_eq_some_iff.mp hy
    exact hab.le
  cases n with
  | node4 n | node16 n => rfl
  | node48 n | node256 n => exact hb n.getChild

theorem pairwise_orderedChildren {n : Inner ArtNode} (h : n.Wf) : (orderedChildren n).Pairwise fun a b => a.1 < b.1 := by
  have : IsTrans (Byte × ArtNode) fun a b => a.1 ≤ b.1 := ⟨fun a b c => le_trans⟩
  have : Std.Total fun a b : Byte × ArtNode => a.1 ≤ b.1 := ⟨fun a b => le_total a.1 b.1⟩
  have hs : (orderedChildren n).Pairwise fun a b => a.1 ≤ b.1 := pairwise_insertionSort _ _
  have hd : (orderedChildren n).Pairwise fun a b => a.1 ≠ b.1 :=
    pairwise_map.mp (h.enumerates.of_perm (orderedChildren_perm n)).distinct
  exact hs.imp₂ (fun a b hle hne => lt_of_le_of_ne hle hne) hd

/-- At a visited node with a prefix longer than its stored bytes nothing depends on the bytes that are left out: no bound goes
on from the stored ones, and no key ends at the node or at an inner node below it. -/
def KeepsKeys (lower upper : Bound) (visit : ArtNode × Bytes) : Prop :=
  match visit.1 with
  | .leaf _ => True
  | .inner n =>
    n.header.prefixLen ≤ maxPrefixLen ∨ prefixMayIntersect (nodeKey visit.2 n) lower upper = false ∨
      Decides (nodeKey visit.2 n) lower ∧ Decides (nodeKey visit.2 n) upper ∧
        ∀ m ∈ (inner n).inners, m.header.values = []

instance (lower upper : Bound) (visit : ArtNode × Bytes) : Decidable (KeepsKeys lower upper visit) :=
  match visit with
  | (.leaf _,_) => inferInstanceAs (Decidable True)
  | (.inner n,keyPrefix) => inferInstanceAs (Decidable (n.header.prefixLen ≤ maxPrefixLen ∨
      prefixMayIntersect (nodeKey keyPrefix n) lower upper = false ∨
      Decides (nodeKey keyPrefix n) lower ∧ Decides (nodeKey keyPrefix n) upper ∧
        ∀ m ∈ (inner n).inners, m.header.values = []))

section
variable {lower upper : Bound} {node : ArtNode} {n : Inner ArtNode} {keyPrefix path hidden k : Bytes}
  {below : Byte → Holdings} {total : Holdings}

/-- What the test of a subtree says about the keys of a path. -/
def Follows (lower upper : Bound) (keyPrefix path : Bytes) : Prop :=
  ∀ k, path <+: k → keyInRange k lower upper = true → prefixMayIntersect keyPrefix lower upper = true

theorem follows_of_isPrefix (h : keyPrefix <+: path) : Follows lower upper keyPrefix path :=
  fun _ hp hin => mayIntersect_of_inRange hin (h.trans hp)

/-- Two keys past bytes that decide for all that goes on from them. -/
def Past (lower upper : Bound) (keyPrefix path : Bytes) : Prop :=
  ∃ stem, stem <+: keyPrefix ∧ stem ≠ keyPrefix ∧ stem <+: path ∧ stem ≠ path ∧ Decides stem lower ∧ Decides stem upper

variable (h : Past lower upper keyPrefix path)
include h

theorem Past.mayIntersect_eq (hp : path <+: k) : prefixMayIntersect keyPrefix lower upper = keyInRange k lower upper := by
  obtain ⟨stem,hkey,hk,hpt,hph,hl,hu⟩ := h
  have hne : stem ≠ k := fun heq => hph (hpt.eq_of_length_le (heq ▸ hp.length_le))
  exact mayIntersect_eq_inRange hl hu hkey hk (hpt.trans hp) hne

theorem Past.follows : Follows lower upper keyPrefix path :=
  fun _ hp hin => (h.mayIntersect_eq hp).trans hin

theorem Past.append (p q : Bytes) : Past lower upper (keyPrefix ++ p) (path ++ q) := by
  obtain ⟨stem,hkey,hk,hp,hpt,hl,hu⟩ := h
  refine ⟨stem,hkey.trans (prefix_append _ _),?_,hp.trans (prefix_append _ _),?_,hl,hu⟩
  · exact fun heq => hk (hkey.eq_of_length_le (heq ▸ (prefix_append _ _).length_le))
  · exact fun heq => hpt (hp.eq_of_length_le (heq ▸ (prefix_append _ _).length_le))

omit h

theorem ne_append_of_isPrefix {p q : Bytes} (h : p <+: q) (b : Byte) : p ≠ q ++ [b] := by
  intro heq
  have hl := h.length_le
  rw [heq,length_append] at hl
  exact absurd hl (Nat.not_succ_le_self _)

theorem past_of_decides (hl : Decides keyPrefix lower) (hu : Decides keyPrefix upper) (hp : keyPrefix <+: path)
    (b : Byte) : Past lower upper (keyPrefix ++ [b]) (path ++ [b]) :=
  ⟨keyPrefix,prefix_append _ _,ne_append_of_isPrefix prefix_rfl b,hp.trans (prefix_append _ _),
    ne_append_of_isPrefix hp b,hl,hu⟩

/-- The key put together for a node is its path, or it decides as the path does for all that comes below. -/
def Tracks (lower upper : Bound) (keyPrefix path : Bytes) (node : ArtNode) : Prop :=
  keyPrefix = path ∧ (∀ visit ∈ node.rangeVisits lower upper keyPrefix, KeepsKeys lower upper visit) ∨
    Past lower upper keyPrefix path ∧ ∀ m ∈ node.inners, m.header.values = []

/-- What holds at a node of which the key is put together: it is the key of the row ids there, and the children are tracked. -/
structure Descends (lower upper : Bound) (key : Bytes) (n : Inner ArtNode) (here : Bytes) : Prop where
  own : key = here ∨ n.header.values = []
  follows : ∀ b, Follows lower upper (key ++ [b]) (here ++ [b])
  tracks : ∀ b child, n.getChild b = some child → prefixMayIntersect (key ++ [b]) lower upper = true →
    Tracks lower upper (key ++ [b]) (here ++ [b]) child

theorem mem_rangeFrames (hm : prefixMayIntersect (nodeKey keyPrefix n) lower upper = true) {b : Byte}
    {child : ArtNode} (hmm : (b,child) ∈ orderedChildren n)
    (hc : prefixMayIntersect (nodeKey keyPrefix n ++ [b]) lower upper = true) :
    (child,nodeKey keyPrefix n ++ [b]) ∈ (inner n).rangeFrames lower upper keyPrefix := by
  rw [rangeFrames,if_pos hm]
  exact mem_map.mpr ⟨(b,child),mem_filter.mpr ⟨hmm,hc⟩,rfl⟩

theorem InnerRep.descends (h : InnerRep n path hidden below total) (ht : Tracks lower upper keyPrefix path (.inner n)) :
    Follows lower upper (nodeKey keyPrefix n) (path ++ hidden) ∧
      (prefixMayIntersect (nodeKey keyPrefix n) lower upper = true →
        Descends lower upper (nodeKey keyPrefix n) n (path ++ hidden)) := by
  have hs : n ∈ (inner n).inners := h.wf.mem_inners.mpr (.inl rfl)
  have hb : ∀ b child, n.getChild b = some child → ∀ m ∈ child.inners, m ∈ (inner n).inners :=
    fun b child hg m hm => h.wf.mem_inners.mpr (.inr ⟨b,child,hg,hm⟩)
  obtain ⟨rfl,hk⟩ | ⟨hp,he⟩ := ht
  · have hsd : nodeKey keyPrefix n = keyPrefix ++ hidden.take maxPrefixLen := by rw [nodeKey,h.stored]
    have hst : nodeKey keyPrefix n <+: keyPrefix ++ hidden := by
      rw [hsd]
      exact (prefix_append_right_inj keyPrefix).mpr ( take_prefix _ _)
    refine ⟨follows_of_isPrefix hst,fun hmy => ?_⟩
    rw [rangeVisits_eq] at hk
    obtain hsh | hpr | ⟨hl,hu,he⟩ := hk _ mem_cons_self
    · -- The key is put together in full.
      have hf : nodeKey keyPrefix n = keyPrefix ++ hidden := by
        rw [hsd,take_of_length_le (h.prefixLen ▸ hsh)]
      refine ⟨.inl hf,fun b => follows_of_isPrefix (hf ▸ prefix_rfl),fun b child hg hc => ?_⟩
      refine .inl ⟨by rw [hf],fun visit hmm => ?_⟩
      have hen : (b,child) ∈ orderedChildren n :=
        (orderedChildren_perm n).mem_iff.mpr ((h.wf.enumerates.mem b child).mp hg)
      exact hk visit (mem_cons_of_mem _ (mem_flatMap.mpr ⟨_,mem_rangeFrames hmy hen hc,hmm⟩))
    · rw [hmy] at hpr
      exact Bool.noConfusion hpr
    · -- From here on the stored bytes decide for all keys below.
      have hp : ∀ b, Past lower upper (nodeKey keyPrefix n ++ [b]) (keyPrefix ++ hidden ++ [b]) :=
        past_of_decides hl hu hst
      exact ⟨.inr (he n hs),fun b => (hp b).follows,fun b child hg _ =>
        .inr ⟨hp b,fun m hm => he m (hb b child hg m hm)⟩⟩
  · have hp' : Past lower upper (nodeKey keyPrefix n) (path ++ hidden) := hp.append _ _
    exact ⟨hp'.follows,fun _ => ⟨.inr (he n hs),fun b => (hp'.append [b] [b]).follows,
      fun b child hg _ => .inr ⟨hp'.append [b] [b],fun m hm => he m (hb b child hg m hm)⟩⟩⟩

theorem flatMap_filter_eq {α β : Type} (xs : List α) (p : α → Bool) (f : α → List β) :
    (xs.filter p).flatMap f = xs.flatMap fun x => if p x then f x else [] := by
  induction xs with
  | nil => rfl
  | cons x rest ih =>
    rw [flatMap_cons,← ih,filter_cons]
    split
    · rw [flatMap_cons]
    · rfl

theorem Rep.listAt_rangeEntries (h : Rep node path total) (ht : Tracks lower upper keyPrefix path node) (k : Bytes) :
    listAt (node.rangeEntries lower upper keyPrefix) k =
      if keyInRange k lower upper then (if path <+: k then Art.getAllRecursive k node path.length else []) else [] := by
  induction h using Rep.inductOn generalizing keyPrefix with
  | leaf leaf path reached =>
    rw [ArtNode.rangeEntries_eq,ArtNode.rangeFrames,flatMap_nil,append_nil,ArtNode.rangeItems,Art.getAllRecursive]
    by_cases hk : k = leaf.key
    · subst hk
      rw [if_pos reached,if_pos rfl]
      split
      · rw [listAt_map_mk,if_pos rfl]
      · rfl
    · rw [if_neg (Ne.symm hk),ite_self,ite_self]
      split
      · rw [listAt_map_mk,if_neg hk]
      · rfl
  | inner n path hidden below total h ih =>
    obtain ⟨hf,hd⟩ := h.descends ht
    rw [← h.yields_eq]
    cases hm : prefixMayIntersect (ArtNode.nodeKey keyPrefix n) lower upper with
    | false =>
      -- None of the keys below is in the range.
      have hno : (if keyInRange k lower upper then yields n path hidden k else []) = [] := by
        split
        next hin =>
          refine yields_elsewhere fun hp => ?_
          rw [hf k hp hin] at hm
          exact Bool.noConfusion hm
        · rfl
      rw [hno,ArtNode.rangeEntries_eq,ArtNode.rangeItems,ArtNode.rangeFrames,hm]
      rfl
    | true =>
      obtain ⟨ho,hch,htr⟩ := hd hm
      have hits : listAt ((ArtNode.inner n).rangeItems lower upper keyPrefix) k =
          if keyInRange k lower upper then (if k = path ++ hidden then n.header.values else []) else [] := by
        rw [ArtNode.rangeItems,hm,Bool.true_and]
        obtain hkey | hempty := ho
        · by_cases hk : k = path ++ hidden
          · subst hk
            rw [hkey,if_pos rfl]
            split
            · rw [listAt_map_mk,if_pos rfl]
            · rfl
          · rw [if_neg hk,ite_self]
            split
            · rw [listAt_map_mk,hkey,if_neg hk]
            · rfl
        · rw [hempty,ite_self,ite_self,map_nil,ite_self]
          rfl
      have hfr : listAt (((ArtNode.inner n).rangeFrames lower upper keyPrefix).flatMap fun frame =>
          frame.1.rangeEntries lower upper frame.2) k = if keyInRange k lower upper then
            n.sortedChildren.flatMap fun entry => if path ++ hidden ++ [entry.1] <+: k then
              Art.getAllRecursive k entry.2 (path ++ hidden ++ [entry.1]).length else []
            else [] := by
        rw [ArtNode.rangeFrames,if_pos hm,flatMap_map,flatMap_filter_eq,orderedChildren_eq,listAt_flatMap]
        have hc : ∀ entry ∈ n.sortedChildren, listAt (if prefixMayIntersect (ArtNode.nodeKey keyPrefix n ++ [entry.1]) lower
            upper then entry.2.rangeEntries lower upper (ArtNode.nodeKey keyPrefix n ++ [entry.1]) else []) k =
            if keyInRange k lower upper then (if path ++ hidden ++ [entry.1] <+: k then
              Art.getAllRecursive k entry.2 (path ++ hidden ++ [entry.1]).length else []) else [] := by
          rintro ⟨b,child⟩ he
          have hg := (h.wf.enumerates.mem b child).mpr (n.sortedChildren_perm.mem_iff.mp he)
          by_cases hc : prefixMayIntersect (ArtNode.nodeKey keyPrefix n ++ [b]) lower upper = true
          · rw [if_pos hc]
            exact ih b child hg (htr b child hg hc)
          rw [if_neg hc,listAt_nil]
          split
          next hin =>
            exact (if_neg fun hp => hc (hch b k hp hin)).symm
          · rfl
        rw [flatMap_congr hc]
        split
        · rfl
        · exact flatMap_eq_nil_iff.mpr fun _ _ => rfl
      rw [ArtNode.rangeEntries_eq,listAt_append,hits,hfr,yields]
      split
      · rfl
      · rfl

theorem Rep.path_of_mem_rangeEntries (h : Rep node path total) (ht : Tracks lower upper keyPrefix path node)
    {entry : Bytes × RowId} (hm : entry ∈ node.rangeEntries lower upper keyPrefix) : path <+: entry.1 := by
  have hne := mem_of_listAt hm
  rw [h.listAt_rangeEntries ht] at hne
  by_contra hno
  rw [if_neg hno,ite_self] at hne
  exact hne rfl

theorem pairwise_map_mk (key : Bytes) (values : List RowId) : (values.map fun v => (key,v)).Pairwise fun a b => a.1 ≤ b.1 :=
  pairwise_map.mpr (pairwise_of_forall fun _ _ => le_refl key)

theorem rangeItems_key (keyPrefix : Bytes) (n : Inner ArtNode) :
    ∀ entry ∈ (inner n).rangeItems lower upper keyPrefix, entry.1 = nodeKey keyPrefix n ∧ n.header.values ≠ [] := by
  intro entry hm
  rw [rangeItems] at hm
  split at hm
  · obtain ⟨v,hv,rfl⟩ := mem_map.mp hm
    exact ⟨rfl,ne_nil_of_mem hv⟩
  · exact absurd hm not_mem_nil

theorem Rep.pairwise_rangeEntries (h : Rep node path total) (ht : Tracks lower upper keyPrefix path node) :
    (node.rangeEntries lower upper keyPrefix).Pairwise fun a b => a.1 ≤ b.1 := by
  induction h using Rep.inductOn generalizing keyPrefix with
  | leaf leaf path reached =>
    rw [rangeEntries_eq,rangeFrames,flatMap_nil,append_nil,rangeItems]
    split
    · exact pairwise_map_mk _ _
    · exact List.Pairwise.nil
  | inner n path hidden below total h ih =>
    obtain ⟨-,hd⟩ := h.descends ht
    rw [rangeEntries_eq]
    cases hm : prefixMayIntersect (nodeKey keyPrefix n) lower upper with
    | false =>
      rw [rangeItems,rangeFrames,hm]
      exact List.Pairwise.nil
    | true =>
      obtain ⟨ho,-,htc⟩ := hd hm
      -- A frame is one of a child, and what is found there goes on with its byte.
      have hf : ∀ entry ∈ (orderedChildren n).filter fun entry =>
          prefixMayIntersect (nodeKey keyPrefix n ++ [entry.1]) lower upper,
          (∀ item ∈ entry.2.rangeEntries lower upper (nodeKey keyPrefix n ++ [entry.1]),
            path ++ hidden ++ [entry.1] <+: item.1) ∧
          (entry.2.rangeEntries lower upper (nodeKey keyPrefix n ++ [entry.1])).Pairwise fun a b => a.1 ≤ b.1 := by
        rintro ⟨b,child⟩ he
        obtain ⟨hmm,hc⟩ := mem_filter.mp he
        have hg := (h.wf.enumerates.mem b child).mpr ((orderedChildren_perm n).mem_iff.mp hmm)
        have htr := htc b child hg hc
        exact ⟨fun item hi => (h.child b child hg).path_of_mem_rangeEntries htr hi,ih b child hg htr⟩
      rw [rangeFrames,if_pos hm,flatMap_map]
      refine pairwise_append.mpr ⟨?_,pairwise_flatMap.mpr ⟨fun entry he => (hf entry he).2,?_⟩,?_⟩
      · rw [rangeItems]
        split
        · exact pairwise_map_mk _ _
        · exact List.Pairwise.nil
      · refine ((pairwise_orderedChildren h.wf).filter _).imp_of_mem fun {a b} ha hb hl x hx y hy => ?_
        obtain ⟨restx,hk⟩ := (hf a ha).1 x hx
        obtain ⟨resty,hky⟩ := (hf b hb).1 y hy
        rw [← hk,← hky]
        refine (append_lt_append_of_lt (by simp) ?_ restx resty).le
        exact (append_lt_append_left_iff (path ++ hidden)).mpr (List.Lex.rel hl)
      · intro item hi found hfn
        obtain ⟨entry,he,hfn⟩ := mem_flatMap.mp hfn
        obtain ⟨hkey,hh⟩ := rangeItems_key keyPrefix n item hi
        have hp := (prefix_append (path ++ hidden) [entry.1]).trans ((hf entry he).1 found hfn)
        rw [hkey,ho.resolve_right hh]
        exact le_of_isPrefix hp

end

namespace AdaptiveRadixTree

/-- The scan visits no node where it depends on bytes of a prefix that are not stored. -/
def Scannable (t : AdaptiveRadixTree) (lower upper : Bound) : Prop :=
  ∀ root ∈ t.root, ∀ visit ∈ root.rangeVisits lower upper [], KeepsKeys lower upper visit
deriving Decidable

/-- The entries of the range in the order of their keys, those of one key as a lookup gives them, up to the limit. -/
def ScansExactly (t : AdaptiveRadixTree) (m : Multimap Bytes RowId) (lower upper : Bound) (limit : Option Nat) : Prop :=
  ∃ entries : List (Bytes × RowId), entries.Pairwise (fun a b => a.1 ≤ b.1) ∧
    (entries : Multimap Bytes RowId) = m.filter (fun entry => keyInRange entry.1 lower upper = true) ∧
    (∀ key, listAt entries key = if keyInRange key lower upper then t.getAll key else []) ∧
    t.rangeScan lower upper limit = limit.elim entries entries.take

variable {t : AdaptiveRadixTree}

theorem rangeScan_eq {root : ArtNode} (hr : t.root = some root) (lower upper : Bound)
    (limit : Option Nat) : t.rangeScan lower upper limit = capped limit (root.rangeEntries lower upper []) := by
  rw [rangeScan,hr]
  dsimp only
  split
  next hz =>
    rw [hz]
    rfl
  · have hn : capped limit [] = [] := by
      cases limit with
      | none => rfl
      | some n => exact take_nil
    rw [scanLoop_eq lower upper _ hn,flatMap_singleton]
    rfl

theorem Refines.scansExactly {m : Multimap Bytes RowId} (h : t.Refines m) {lower upper : Bound}
    (hs : t.Scannable lower upper) (limit : Option Nat) : t.ScansExactly m lower upper limit := by
  have hlk : ∀ entries : List (Bytes × RowId),
      (∀ key, listAt entries key = if keyInRange key lower upper then t.getAll key else []) →
      (entries : Multimap Bytes RowId) = m.filter (fun entry => keyInRange entry.1 lower upper = true) := by
    intro entries hl
    refine ext_valuesAt fun key => ?_
    rw [← coe_listAt,hl,valuesAt_filter_key m (fun key => keyInRange key lower upper)]
    split
    · exact h.getAll key
    · rfl
  cases hr : t.root with
  | none =>
    have hl : ∀ key, listAt ([] : List (Bytes × RowId)) key =
        if keyInRange key lower upper then t.getAll key else [] := fun key => by
      rw [AdaptiveRadixTree.getAll,hr,ite_self,listAt_nil]
    refine ⟨[],List.Pairwise.nil,hlk [] hl,hl,?_⟩
    rw [rangeScan,hr]
    cases limit with
    | none => rfl
    | some n => exact take_nil.symm
  | some root =>
    have hrp : Rep root [] (m,t.counters.nodeCount) := by
      have hrp := h.rep
      rw [hr] at hrp
      exact hrp
    have htr : Tracks lower upper [] [] root := .inl ⟨rfl,hs root hr⟩
    have hl : ∀ key, listAt (root.rangeEntries lower upper []) key =
        if keyInRange key lower upper then t.getAll key else [] := fun key => by
      rw [hrp.listAt_rangeEntries htr,if_pos nil_prefix,AdaptiveRadixTree.getAll,hr]
      rfl
    exact ⟨_,hrp.pairwise_rangeEntries htr,hlk _ hl,hl,rangeScan_eq hr lower upper limit⟩

end AdaptiveRadixTree

end HeliosNano.Storage.Art
