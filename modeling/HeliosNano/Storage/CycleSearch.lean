import HeliosNano.Storage.Deadlock

/-! The deadlock search is exact: on every graph it comes to an end, and it answers yes exactly when some recorded
cycle can be reached. Nodes that are visited and not on the stack are done with: no cycle can be reached from them. -/
namespace HeliosNano.Storage.Deadlock
open Foundation LockManager Relation List

/-- A call marks its node as visited and puts it on the stack. -/
def enter (node : TxnId) (v : Visit) : Visit := ⟨node::v.visited,node::v.recStack⟩

/-- A call that found nothing takes its node from the stack. -/
def leave (node : TxnId) (v : Visit) : Visit := { v with recStack := v.recStack.filter (· ≠ node) }

/-- The rest of a call of `has_cycle` for a node, from some neighbours on, ends with an outcome. A derivation is an
execution, so there is one only where the recursion comes to an end. -/
inductive Ends (graph : WaitGraph) : TxnId → List TxnId → Visit → Bool × Visit → Prop
  | exhausted {node v} : Ends graph node [] v (false,leave node v)
  | found {node neighbor rest v v'} (hnew : neighbor ∉ v.visited)
      (hcall : Ends graph neighbor (recorded graph neighbor) (enter neighbor v) (true,v')) :
      Ends graph node (neighbor::rest) v (true,v')
  | returned {node neighbor rest v v' out} (hnew : neighbor ∉ v.visited)
      (hcall : Ends graph neighbor (recorded graph neighbor) (enter neighbor v) (false,v'))
      (hrest : Ends graph node rest v' out) : Ends graph node (neighbor::rest) v out
  | closed {node neighbor rest v} (hold : neighbor ∈ v.visited) (hstack : neighbor ∈ v.recStack) :
      Ends graph node (neighbor::rest) v (true,v)
  | skipped {node neighbor rest v out} (hold : neighbor ∈ v.visited) (hstack : neighbor ∉ v.recStack)
      (hrest : Ends graph node rest v out) : Ends graph node (neighbor::rest) v out

def CallEnds (graph : WaitGraph) (node : TxnId) (v : Visit) (out : Bool × Visit) : Prop :=
  Ends graph node (recorded graph node) (enter node v) out

section
variable {graph : WaitGraph} {node : TxnId} {rest : List TxnId} {v : Visit} {out : Bool × Visit}

theorem Ends.unique (h : Ends graph node rest v out) {out' : Bool × Visit} (h' : Ends graph node rest v out') : out' = out := by
  induction h generalizing out' with
  | exhausted =>
    cases h'
    rfl
  | found hnew hcall ih =>
    cases h' with
    | found _ hc' => exact ih hc'
    | returned _ hc' => cases ih hc'
    | closed hold | skipped hold => exact absurd hold hnew
  | returned hnew hcall hrest ihcall ihrest =>
    cases h' with
    | found _ hc' => cases ihcall hc'
    | returned _ hc' hr' =>
      cases ihcall hc'
      exact ihrest hr'
    | closed hold | skipped hold => exact absurd hold hnew
  | closed hold hs =>
    cases h' with
    | found hnew | returned hnew => exact absurd hold hnew
    | closed => rfl
    | skipped _ hn => exact absurd hs hn
  | skipped hold hs hrest ih =>
    cases h' with
    | found hnew | returned hnew => exact absurd hold hnew
    | closed _ hy => exact absurd hy hs
    | skipped _ _ hr' => exact ih hr'

/-- What a call returns after its loop. -/
def conclude (node : TxnId) : Bool × Visit → Bool × Visit
  | (true,v) => (true,v)
  | (false,v) => (false,leave node v)

theorem hasCycle_succ (fuel : Nat) (node : TxnId) (v : Visit) : hasCycle graph (fuel+1) node v =
    conclude node (scanNeighbors (hasCycle graph fuel) (recorded graph node) (enter node v)) := by
  rw [hasCycle,conclude.eq_def]
  rfl

variable {fuel : Nat} {v : Visit} {u : TxnId}

theorem ends_scanNeighbors (node : TxnId) (hv : ∀ {neighbor v}, unvisited graph v.visited < fuel → neighbor ∉ v.visited →
      CallEnds graph neighbor v (hasCycle graph fuel neighbor v)) (rest : List TxnId) (hf : unvisited graph v.visited < fuel) :
    Ends graph node rest v (conclude node (scanNeighbors (hasCycle graph fuel) rest v)) := by
  induction rest generalizing v with
  | nil => exact .exhausted
  | cons neighbor rest ih =>
    rw [scanNeighbors.eq_def]
    dsimp only
    split
    next hnew =>
      have hcall := hv hf hnew
      have hg := @hasCycle_grows graph fuel neighbor v
      split
      next v' ho =>
        rw [ho] at hcall
        exact .found hnew hcall
      next v' ho =>
        rw [ho] at hcall hg
        exact .returned hnew hcall (ih (Nat.lt_of_le_of_lt (unvisited_anti hg) hf))
    next hold =>
      rw [not_not] at hold
      split
      next hs =>
        exact .closed hold hs
      next hs =>
        exact .skipped hold hs (ih hf)

theorem callEnds_hasCycle {node : TxnId} (hf : unvisited graph v.visited < fuel)
    (hnew : node ∉ v.visited) : CallEnds graph node v (hasCycle graph fuel node v) := by
  induction fuel generalizing node v with
  | zero => exact absurd hf (Nat.not_lt_zero _)
  | succ fuel ih =>
    rw [hasCycle_succ]
    by_cases hkey : node ∈ graph
    · have hl : unvisited graph (node::v.visited) < unvisited graph v.visited := unvisited_cons_lt hkey hnew
      exact ends_scanNeighbors node ih _ (show unvisited graph (node::v.visited) < fuel by omega)
    -- a node that waits for nobody ends the recursion
    have hn : recorded graph node = [] := by
      rw [recorded,AList.lookup_eq_none.mpr hkey]
      rfl
    rw [CallEnds,hn]
    exact .exhausted

/-- No walk from the node goes on for ever. -/
def Done (graph : WaitGraph) (node : TxnId) : Prop := Acc (fun other txn => Recorded graph txn other) node

theorem Done.not_cycle (h : Done graph node) : ¬TransGen (Recorded graph) node node := by
  induction h with
  | intro node _ ih =>
    intro hc
    obtain ⟨next,he,hb⟩ := TransGen.head'_iff.mp hc
    exact ih next he (TransGen.tail' hb he)

theorem Done.of_reachable (h : Done graph node) (hr : ReflTransGen (Recorded graph) node u) : Done graph u := by
  induction hr with
  | refl => exact h
  | tail _ he ih => exact ih.inv he

/-- The visited nodes that have left the stack are done with. -/
def Settled (graph : WaitGraph) (v : Visit) : Prop := ∀ x ∈ v.visited, x ∉ v.recStack → Done graph x

theorem Settled.enter (h : Settled graph v) : Settled graph (enter node v) := by
  intro x hx hs
  obtain ⟨hne,hold⟩ := not_or.mp (mt mem_cons.mpr hs)
  exact h x ((mem_cons.mp hx).resolve_left hne) hold

/-- A call that answers no gives the stack back as it was, and is done with its node. The nodes of the stack above
which it runs are visited, and the neighbours that its loop has left behind are done with. -/
theorem Ends.settled (h : Ends graph node rest v out) {stack : List TxnId} (hv : v.recStack = node::stack)
    (hnew : node ∉ stack) (hvs : v.recStack ⊆ v.visited) (hst : Settled graph v)
    (hd : ∀ other, Recorded graph node other → other ∈ rest ∨ Done graph other) (hno : out.1 = false) :
    out.2.recStack = stack ∧ v.visited ⊆ out.2.visited ∧ Settled graph out.2 := by
  induction h generalizing stack with
  | @exhausted node v =>
    have hs : (leave node v).recStack = stack := by
      rw [leave,hv,filter_cons_of_neg (by simp)]
      refine filter_eq_self.mpr fun x hx => decide_eq_true ?_
      rintro rfl
      exact hnew hx
    refine ⟨hs,List.Subset.refl _,fun x hx hl => ?_⟩
    by_cases hnd : x = node
    · rw [hnd]
      exact Acc.intro node fun other he => (hd other he).resolve_left not_mem_nil
    rw [hs] at hl
    refine hst x hx ?_
    rw [hv]
    exact not_mem_cons_of_ne_of_not_mem hnd hl
  | found | closed => cases hno
  | @returned node neighbor rest v v' out hf _ _ ihcall ihrest =>
    obtain ⟨hs',hg,hst'⟩ := @ihcall v.recStack rfl (fun hm => hf (hvs hm))
      (cons_subset_cons neighbor hvs) hst.enter (fun other he => .inl he) rfl
    have hn : Done graph neighbor := by
      refine hst' neighbor (hg mem_cons_self) ?_
      rw [hs']
      exact fun hm => hf (hvs hm)
    have hg' : v.visited ⊆ v'.visited := fun x hx => hg (mem_cons_of_mem _ hx)
    have hoh : ∀ other, Recorded graph node other → other ∈ rest ∨ Done graph other := by
      intro other he
      rcases hd other he with hm | ho
      · rcases mem_cons.mp hm with rfl | hm
        · exact .inr hn
        · exact .inl hm
      · exact .inr ho
    obtain ⟨hs,hgr,hou⟩ := ihrest (hs'.trans hv) hnew
      (by rw [hs']; exact fun x hx => hg' (hvs hx)) hst' hoh hno
    exact ⟨hs,List.Subset.trans hg' hgr,hou⟩
  | @skipped node neighbor rest v out hold hl _ ih =>
    refine ih hv hnew hvs hst (fun other he => ?_) hno
    rcases hd other he with hm | ho
    · rcases mem_cons.mp hm with rfl | hm
      · exact .inr (hst other hold hl)
      · exact .inl hm
    · exact .inr ho

theorem CallEnds.no_cycle (h : CallEnds graph node ⟨[],[]⟩ out) (hno : out.1 = false)
    (hr : ReflTransGen (Recorded graph) node u) : ¬TransGen (Recorded graph) u u := by
  obtain ⟨hs,hg,hst⟩ := @Ends.settled _ _ _ _ _ h [] rfl not_mem_nil (List.Subset.refl _)
    (Settled.enter fun x hx => absurd hx not_mem_nil) (fun other he => .inl he) hno
  have hn : Done graph node := by
    refine hst node (hg mem_cons_self) ?_
    exact hs ▸ not_mem_nil
  exact (hn.of_reachable hr).not_cycle

end

theorem cycleFrom_iff {graph : WaitGraph} {node : TxnId} : CycleFrom graph node ↔
    ∃ u, ReflTransGen (Recorded graph) node u ∧ TransGen (Recorded graph) u u := by
  constructor
  · rintro ⟨u,w,hr,he,hb⟩
    exact ⟨u,hr,TransGen.head' he hb⟩
  · rintro ⟨u,hr,hc⟩
    obtain ⟨w,he,hb⟩ := TransGen.head'_iff.mp hc
    exact ⟨u,w,hr,he,hb⟩

/-- On every wait-for graph the search of every transaction ends with exactly one outcome, and it answers yes exactly
when the transaction can reach a cycle. -/
theorem cycle_search_exact (m : LockManager) (txn : TxnId) :
    ∃ out, CallEnds m.waitGraph txn ⟨[],[]⟩ out ∧ (∀ out', CallEnds m.waitGraph txn ⟨[],[]⟩ out' → out' = out) ∧
      m.detectDeadlock txn = out.1 ∧
      (out.1 = true ↔ ∃ u, ReflTransGen (Recorded m.waitGraph) txn u ∧ TransGen (Recorded m.waitGraph) u u) := by
  have hfuel : unvisited m.waitGraph [] < m.waitGraph.keys.length+1 := Nat.lt_succ_of_le (length_filter_le _ _)
  have hends : CallEnds m.waitGraph txn ⟨[],[]⟩ (hasCycle m.waitGraph (m.waitGraph.keys.length+1) txn ⟨[],[]⟩) :=
    callEnds_hasCycle hfuel not_mem_nil
  refine ⟨_,hends,fun out' hout => hends.unique hout,rfl,fun hyes => ?_,fun hcycle => ?_⟩
  · exact cycleFrom_iff.mp ((hasCycle_sound _ txn ⟨[],[]⟩).1 hyes fun x hx => absurd hx not_mem_nil)
  · obtain ⟨u,hreach,hround⟩ := hcycle
    by_contra hno
    exact hends.no_cycle (Bool.not_eq_true _ ▸ hno) hreach hround

end HeliosNano.Storage.Deadlock
