import HeliosNano.Storage.Art.Contents

namespace HeliosNano.Storage.Art
open Foundation Foundation.Multimap List Function

/-- The subtree under a byte, or nothing. -/
def RepAt : Option ArtNode → Bytes → Holdings → Prop
  | some child, path, part => Rep child path part
  | none, _, part => part = 0

section
variable {n n' : Inner ArtNode} {path hidden : Bytes} {below : Byte → Holdings} {total part : Holdings} {b : Byte}
  {child : Option ArtNode}

theorem InnerHolds.update (h : InnerHolds n path hidden below total)
    (hn : n.Becomes n' (Function.update n.getChild b child)) (hc : RepAt child (path ++ hidden ++ [b]) part) :
    ∃ total', InnerHolds n' path hidden (Function.update below b part) total' ∧ total'.1+(below b).1 = total.1+part.1 ∧
      total'.2+(below b).2 + Pi.single n.layout 1 = total.2+part.2 + Pi.single n'.layout 1 := by
  obtain ⟨hwf,hg,hl,hst,hv⟩ := hn
  have hsm := sum_update_add below b part
  refine ⟨_,⟨hwf,h.short,hl.trans h.prefixLen,hst.trans h.stored,fun b' child' hb' => ?_,fun b' hb' => ?_,
    rfl⟩,?_,?_⟩
  · rw [hg] at hb'
    by_cases hbb : b' = b
    · subst hbb
      rw [update_self] at hb' ⊢
      rw [hb'] at hc
      exact hc
    · rw [update_of_ne hbb] at hb' ⊢
      exact h.child b' child' hb'
  · rw [hg] at hb'
    by_cases hbb : b' = b
    · subst hbb
      rw [update_self] at hb' ⊢
      rw [hb'] at hc
      exact hc
    · rw [update_of_ne hbb] at hb' ⊢
      exact h.vacant b' hb'
  · have hf := congrArg Prod.fst hsm
    rw [h.held]
    simp only [Prod.fst_add,ownHoldings,hv] at hf ⊢
    rw [add_assoc,hf,add_assoc]
  · have hs := congrArg Prod.snd hsm
    rw [h.held]
    simp only [Prod.snd_add,ownHoldings] at hs ⊢
    rw [add_assoc (Pi.single _ _),hs]
    abel

theorem InnerHolds.revalue (h : InnerHolds n path hidden below total) {f : NodeHeader → NodeHeader}
    (hf : ∀ header, header.Agrees { f header with values := header.values } ∧ (f header).numChildren = header.numChildren) :
    ∃ total', InnerHolds (n.modifyHeader f) path hidden below total' ∧
      total'.1 + entries (path ++ hidden) n.header.values = total.1 + entries (path ++ hidden) (f n.header).values ∧
      total'.2 = total.2 := by
  obtain ⟨hwf,hg,hh,hl⟩ := h.wf.modifyHeader fun header => (hf header).2
  obtain ⟨hln,hs,-⟩ := (hf n.header).1
  refine ⟨_,⟨hwf,h.short,by rw [hh]; exact hln.trans h.prefixLen,
    by rw [hh]; exact hs.trans h.stored,by rw [hg]; exact h.child,by rw [hg]; exact h.vacant,rfl⟩,?_,?_⟩
  · rw [h.held]
    simp only [Prod.fst_add,ownHoldings,hh]
    rw [add_right_comm,add_comm (entries _ _),add_right_comm]
  · rw [h.held]
    simp only [Prod.snd_add,ownHoldings,hl]

variable {header : NodeHeader} {bytes : Bytes}

theorem NodeHeader.prefixLen_setPrefix (hsh : bytes.length ≤ u32Max) : (header.setPrefix bytes).prefixLen = bytes.length :=
  Nat.mod_eq_of_lt (Nat.lt_succ_of_le hsh)

theorem NodeHeader.getPrefix_setPrefix (hsh : bytes.length ≤ u32Max) :
    (header.setPrefix bytes).getPrefix = bytes.take maxPrefixLen := by
  rw [NodeHeader.getPrefix,prefixLen_setPrefix hsh,NodeHeader.setPrefix]
  exact take_left' (by rw [length_take,Nat.min_comm])

theorem InnerHolds.reprefix {front remaining : Bytes} (h : InnerHolds n path hidden below total)
    (hs : hidden = front ++ remaining) :
    InnerHolds (n.modifyHeader fun header => header.setPrefix remaining) (path ++ front) remaining below total := by
  obtain ⟨hwf,hg,hh,hl⟩ := h.wf.modifyHeader (f := fun header => header.setPrefix remaining) fun _ => rfl
  have hsh : remaining.length ≤ u32Max := by
    have hln := h.short
    rw [hs,length_append] at hln
    omega
  have hp : path ++ front ++ remaining = path ++ hidden := by rw [hs,append_assoc]
  refine ⟨hwf,hsh,by rw [hh,NodeHeader.prefixLen_setPrefix hsh],
    by rw [hh,NodeHeader.getPrefix_setPrefix hsh],by rw [hg,hp]; exact h.child,
    by rw [hg]; exact h.vacant,?_⟩
  rw [h.held,ownHoldings,ownHoldings,hh,hl,hp]
  rfl

end
end HeliosNano.Storage.Art
