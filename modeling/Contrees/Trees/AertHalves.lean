import Contrees.Trees.AertHandlers
import Contrees.Trees.AertOrdered

namespace Contrees.Trees.Aert.Cow

open Library Library.Memory Library.Slots Conctrl

variable {S S' N : Address → Prop} {h h' : NodeHeap} {t s n : Nat} {p q : Address} {hd : Head}

section Denotation

mutual

/-- The tree that a heap holds under a pointer, all of its nodes in `S`. -/
def Denotes (S : Address → Prop) (h : NodeHeap) : Option NodePtr → Tree → Prop
  | r, .null => r = none
  | r, .leaf hd val => ∃ p, r = some (plain p) ∧ S p ∧ hd.type = .leaf ∧
      (∃ ver, h (p, Field.head) = some (ver, hd)) ∧ h (p, Field.val) = some val
  | r, .node hd chs => ∃ p, r = some (plain p) ∧ S p ∧ hd.type ≠ .leaf ∧
      (∃ ver, h (p, Field.head) = some (ver, hd)) ∧
      ∃ ps, h (p, Field.chs) = some ps ∧ DenotesList S h ps chs
  | r, .tagged lo t => ∃ p, r = some ⟨p, some lo⟩ ∧ Denotes S h (some (plain p)) t

def DenotesList (S : Address → Prop) (h : NodeHeap) : List (Option NodePtr) → List Tree → Prop
  | rs, [] => rs = []
  | rs, t :: ts => ∃ q qs, rs = q :: qs ∧ Denotes S h q t ∧ DenotesList S h qs ts

end

theorem denotesList_iff {rs : List (Option NodePtr)} {ts : List Tree} :
    DenotesList S h rs ts ↔ List.Forall₂ (Denotes S h) rs ts := by
  induction ts generalizing rs with
  | nil => simp [DenotesList]
  | cons t ts ih =>
      cases rs with
      | nil => simp [DenotesList]
      | cons r rs => simp [DenotesList, ih]

theorem plain_inj {p q : Address} : plain p = plain q ↔ p = q := by simp [plain]

theorem denotes_null : Denotes S h default default := by
  change Denotes S h none .null
  rw [Denotes]

theorem denotes_leaf {val : Nat} :
    Denotes S h (some (plain p)) (.leaf hd val) ↔ S p ∧ hd.type = .leaf ∧
    (∃ ver, h (p, Field.head) = some (ver, hd)) ∧ h (p, Field.val) = some val := by
  simp only [Denotes, Option.some.injEq, plain_inj, exists_eq_left']

theorem denotes_node {chs : List Tree} :
    Denotes S h (some (plain p)) (.node hd chs) ↔ S p ∧ hd.type ≠ .leaf ∧
    (∃ ver, h (p, Field.head) = some (ver, hd)) ∧
      ∃ ps, h (p, Field.chs) = some ps ∧ List.Forall₂ (Denotes S h) ps chs := by
  simp only [Denotes, denotesList_iff, Option.some.injEq, plain_inj, exists_eq_left']

theorem denotes_tagged {lo lo' : Nat} {T : Tree} : Denotes S h (some ⟨p, some lo⟩) (.tagged lo' T) ↔
    lo = lo' ∧ Denotes S h (some (plain p)) T := by
  rw [Denotes]
  constructor
  · rintro ⟨q, heq, hT⟩
    cases heq
    exact ⟨rfl, hT⟩
  · rintro ⟨rfl, hT⟩
    exact ⟨p, rfl, hT⟩

mutual

theorem Denotes.frame {r : Option NodePtr} {T : Tree} (hr : Denotes S h r T)
    (hS : ∀ q, S q → S' q ∧ ∀ f, h' (q, f) = h (q, f)) : Denotes S' h' r T := by
  match T with
  | .null => exact hr
  | .leaf hd val =>
      obtain ⟨p, rfl, hs, htype, ⟨ver, hhead⟩, hval⟩ := hr
      exact ⟨p, rfl, (hS p hs).1, htype,
        ⟨ver, by rw [(hS p hs).2, hhead]⟩, by rw [(hS p hs).2, hval]⟩
  | .node hd chs =>
      obtain ⟨p, rfl, hs, htype, ⟨ver, hhead⟩, ps, hchs, hps⟩ := hr
      exact ⟨p, rfl, (hS p hs).1, htype, ⟨ver, by rw [(hS p hs).2, hhead]⟩, ps,
        by rw [(hS p hs).2, hchs], hps.frame hS⟩
  | .tagged lo T =>
      obtain ⟨p, rfl, hT⟩ := hr
      exact ⟨p, rfl, hT.frame hS⟩

theorem DenotesList.frame {rs : List (Option NodePtr)} {ts : List Tree} (hr : DenotesList S h rs ts)
    (hS : ∀ q, S q → S' q ∧ ∀ f, h' (q, f) = h (q, f)) : DenotesList S' h' rs ts := by
  match ts with
  | [] => exact hr
  | t :: ts =>
      obtain ⟨q, qs, rfl, hq, hqs⟩ := hr
      exact ⟨q, qs, rfl, hq.frame hS, hqs.frame hS⟩

end

theorem forall₂_frame {rs : List (Option NodePtr)} {ts : List Tree}
    (hr : List.Forall₂ (Denotes S h) rs ts)
    (hS : ∀ q, S q → S' q ∧ ∀ f, h' (q, f) = h (q, f)) : List.Forall₂ (Denotes S' h') rs ts :=
  hr.imp fun _ _ hd => hd.frame hS

inductive HasHead : Tree → Head → Prop
  | leaf (hd : Head) (val : Nat) : HasHead (.leaf hd val) hd
  | node (hd : Head) (chs : List Tree) : HasHead (.node hd chs) hd

theorem HasHead.denotes {r : Option NodePtr} {T : Tree} (hT : HasHead T hd) (hr : Denotes S h r T) :
    ∃ p, r = some (plain p) ∧ S p ∧ ∃ v, h (p, Field.head) = some (v, hd) := by
  cases hT with
  | leaf =>
      obtain ⟨p, rfl, hs, -, hhead, -⟩ := hr
      exact ⟨p, rfl, hs, hhead⟩
  | node =>
      obtain ⟨p, rfl, hs, -, hhead, -⟩ := hr
      exact ⟨p, rfl, hs, hhead⟩

theorem HasHead.same {hd' : Head} {r : Option NodePtr} {T T' : Tree} (hT : HasHead T hd)
    (hT' : HasHead T' hd') (hr : Denotes S h r T) (hr' : Denotes S' h r T') : hd = hd' := by
  obtain ⟨p, rfl, -, v, hhead⟩ := hT.denotes hr
  obtain ⟨p', hp', -, v', hhead'⟩ := hT'.denotes hr'
  obtain rfl : p = p' := plain_inj.mp (Option.some.inj hp')
  exact (Prod.mk.inj (Option.some.inj (hhead.symm.trans hhead'))).2

mutual

theorem Denotes.unique {r : Option NodePtr} {T T' : Tree} (hr : Denotes S h r T)
    (hr' : Denotes S' h r T') :
    T = T' := by
  match T, T' with
  | .null, .null => rfl
  | .null, .leaf hd val | .null, .node hd chs | .null, .tagged lo T =>
      obtain rfl : r = none := hr
      obtain ⟨p, hp, -⟩ := hr'
      cases hp
  | .leaf hd val, .null | .node hd chs, .null | .tagged lo T, .null =>
      obtain rfl : r = none := hr'
      obtain ⟨p, hp, -⟩ := hr
      cases hp
  | .leaf hd val, .tagged lo T | .node hd chs, .tagged lo T =>
      obtain ⟨p, rfl, -⟩ := hr
      obtain ⟨p', hp', -⟩ := hr'
      cases hp'
  | .tagged lo T, .leaf hd val | .tagged lo T, .node hd chs =>
      obtain ⟨p, rfl, -⟩ := hr
      obtain ⟨p', hp', -⟩ := hr'
      cases hp'
  | .leaf hd val, .leaf hd' val' =>
      obtain rfl : hd = hd' := HasHead.same (.leaf hd val) (.leaf hd' val') hr hr'
      obtain ⟨p, rfl, -, -, -, hval⟩ := hr
      obtain ⟨p', hp', -, -, -, hval'⟩ := hr'
      obtain rfl : p = p' := plain_inj.mp (Option.some.inj hp')
      rw [Option.some.inj (hval.symm.trans hval')]
  | .leaf hd val, .node hd' chs' =>
      obtain rfl : hd = hd' := HasHead.same (.leaf hd val) (.node hd' chs') hr hr'
      obtain ⟨p, rfl, -, htype, -⟩ := hr
      obtain ⟨p', -, -, htype', -⟩ := hr'
      exact absurd htype htype'
  | .node hd chs, .leaf hd' val' =>
      obtain rfl : hd = hd' := HasHead.same (.node hd chs) (.leaf hd' val') hr hr'
      obtain ⟨p, rfl, -, htype, -⟩ := hr
      obtain ⟨p', -, -, htype', -⟩ := hr'
      exact absurd htype' htype
  | .node hd chs, .node hd' chs' =>
      obtain rfl : hd = hd' := HasHead.same (.node hd chs) (.node hd' chs') hr hr'
      obtain ⟨p, rfl, -, -, -, ps, hchs, hps⟩ := hr
      obtain ⟨p', hp', -, -, -, ps', hchs', hps'⟩ := hr'
      obtain rfl : p = p' := plain_inj.mp (Option.some.inj hp')
      obtain rfl := Option.some.inj (hchs.symm.trans hchs')
      rw [hps.unique hps']
  | .tagged lo T, .tagged lo' T' =>
      obtain ⟨p, rfl, hT⟩ := hr
      obtain ⟨p', hp', hT'⟩ := hr'
      cases hp'
      rw [hT.unique hT']

theorem DenotesList.unique {rs : List (Option NodePtr)} {ts ts' : List Tree}
    (hr : DenotesList S h rs ts) (hr' : DenotesList S' h rs ts') : ts = ts' := by
  match ts, ts' with
  | [], [] => rfl
  | [], t' :: ts' =>
      obtain rfl : rs = [] := hr
      obtain ⟨q, qs, hnil, -⟩ := hr'
      cases hnil
  | t :: ts, [] =>
      obtain rfl : rs = [] := hr'
      obtain ⟨q, qs, hnil, -⟩ := hr
      cases hnil
  | t :: ts, t' :: ts' =>
      obtain ⟨q, qs, rfl, hq, hqs⟩ := hr
      obtain ⟨q', qs', heq, hq', hqs'⟩ := hr'
      injection heq with hqq hqqs
      subst hqq hqqs
      rw [hq.unique hq', hqs.unique hqs']

end

end Denotation

section Upper

/-- A child of an upper half: a lower half, or a tagged pointer to what stands in `S`. -/
def Held (S : Address → Prop) (h : NodeHeap) : Option NodePtr → Tree → Prop
  | r, .null => r = none
  | _, .leaf _ _ => False
  | r, .node hd chs => ∃ q, r = some (plain q) ∧ hd.type ≠ .leaf ∧
      (∃ ver, h (q, Field.head) = some (ver, hd)) ∧
      ∃ qs, h (q, Field.chs) = some qs ∧ List.Forall₂ (Denotes S h) qs chs
  | r, .tagged lo T => Denotes S h r (.tagged lo T)

theorem held_null : Held S h default default := rfl

def IsPlain (r : Option NodePtr) : Prop := ∃ q, r = some (plain q)

theorem not_isPlain_tagged {lo : Nat} : ¬ IsPlain (some ⟨p, some lo⟩) := by
  rintro ⟨q, hq⟩
  cases hq

theorem Held.frame {r : Option NodePtr} {T : Tree} (hr : Held S h r T)
    (hS : ∀ q, S q → S' q ∧ ∀ f, h' (q, f) = h (q, f))
    (hq : ∀ q, r = some (plain q) → ∀ f, h' (q, f) = h (q, f)) : Held S' h' r T := by
  cases T with
  | null => exact hr
  | leaf => exact hr
  | node hd chs =>
      obtain ⟨q, rfl, htype, ⟨ver, hhead⟩, qs, hchs, hqs⟩ := hr
      refine ⟨q, rfl, htype, ⟨ver, ?_⟩, qs, ?_, forall₂_frame hqs hS⟩
      · rw [hq q rfl, hhead]
      · rw [hq q rfl, hchs]
  | tagged => exact Denotes.frame hr hS

/-- The halves of a node that is split, at `p`: the nodes of the halves are in `N`,
each is there once, and what they hold is in `S`. -/
structure UpperAt (S N : Address → Prop) (h : NodeHeap) (p : Address) (uh : Head × List Tree)
    (ps : List (Option NodePtr)) : Prop where
  own : N p
  type : uh.1.type ≠ .leaf
  head : ∃ ver, h (p, Field.head) = some (ver, uh.1)
  chs : h (p, Field.chs) = some ps
  children : List.Forall₂ (Held S h) ps uh.2
  lower : ∀ i q, ps.getD i none = some (plain q) → N q ∧ q ≠ p
  once : Once IsPlain ps

variable {uh : Head × List Tree} {ps : List (Option NodePtr)}

theorem UpperAt.held (u : UpperAt S N h p uh ps) (hS : ∀ q, S q → S' q ∧ ∀ f, h' (q, f) = h (q, f))
    (hN : ∀ q, N q → q ≠ p → ∀ f, h' (q, f) = h (q, f)) : List.Forall₂ (Held S' h') ps uh.2 := by
  refine related_of_getD u.children.length_eq fun i _ => ?_
  exact (related_get u.children held_null i).frame hS fun q hq => hN q (u.lower i q hq).1
    (u.lower i q hq).2

theorem UpperAt.frame (u : UpperAt S N h p uh ps) (hS : ∀ q, S q → S' q ∧ ∀ f, h' (q, f) = h (q, f))
    (hN : ∀ q, N q → ∀ f, h' (q, f) = h (q, f)) : UpperAt S' N h' p uh ps := by
  have hheld := u.held hS fun q hq _ => hN q hq
  obtain ⟨own, type, ⟨ver, head⟩, chs, -, lower, once⟩ := u
  exact ⟨own, type, ⟨ver, by rw [hN p own, head]⟩, by rw [hN p own, chs], hheld, lower, once⟩

theorem UpperAt.denotes (u : UpperAt S N h p uh ps) (hS : ∀ q, S q → S' q) (hN : ∀ q, N q → S' q) :
    Denotes S' h (some (plain p)) (.node uh.1 uh.2) := by
  rw [denotes_node]
  refine ⟨hN p u.own, u.type, u.head, ps, u.chs, related_of_getD u.children.length_eq fun i _ => ?_⟩
  have hS' : ∀ q, S q → S' q ∧ ∀ f, h (q, f) = h (q, f) := fun q hq => ⟨hS q hq, fun _ => rfl⟩
  have hheld := related_get u.children held_null i
  cases hT : uh.2.getD i default with
  | null =>
      rw [hT] at hheld
      exact hheld
  | leaf =>
      rw [hT] at hheld
      exact hheld.elim
  | node lh chs =>
      rw [hT] at hheld
      obtain ⟨q, hq, htype, hhead, qs, hchs, hqs⟩ := hheld
      rw [hq, denotes_node]
      exact ⟨hN q (u.lower i q hq).1, htype, hhead, qs, hchs, forall₂_frame hqs hS'⟩
  | tagged lo T =>
      rw [hT] at hheld
      exact Denotes.frame hheld hS'

theorem related_findch {ρ σ : Type} [Inhabited ρ] [Inhabited σ] {R : ρ → σ → Prop} {xs : List ρ}
    {ys : List σ} (hs : List.Forall₂ R xs ys) (h₀ : R default default) (hd : Head) (d : Nat) :
    R (findch hd xs d) (findch hd ys d) := by
  rw [findch, findch]
  cases findidx hd d with
  | none => exact h₀
  | some idx => exact related_get hs h₀ idx

theorem related_insertch {ρ σ : Type} [Inhabited ρ] [Inhabited σ] {R : ρ → σ → Prop} {xs : List ρ}
    {ys : List σ}
    {x : ρ} {y : σ} (hs : List.Forall₂ R xs ys) (h₀ : R default default) (hxy : R x y) (hd : Head)
    (i : Nat) :
    List.Forall₂ R (Aert.insertch hd xs i x) (Aert.insertch hd ys i y) := by
  cases hn : hd.type <;> simp only [Aert.insertch, hn]
  case leaf => exact hs
  case nodeh16 => exact related_put hs h₀ hxy i
  all_goals exact related_insertIdx hs hxy i

theorem getD_insertch {hd : Head} {x : Option NodePtr} {i j : Nat} :
    (Aert.insertch hd ps i x).getD j none = x ∨ ∃ k, (Aert.insertch hd ps i x).getD j none =
    ps.getD k none := by
  have hput : ∀ y, (put i y ps).getD j none = if j = i then y else ps.getD j none :=
    fun y => getD_put
  have hins : i ≤ ps.length → (ps.insertIdx i x).getD j none =
      if j < i then ps.getD j none else if j = i then x else ps.getD (j - 1) none :=
        fun hi => getD_insertIdx hi
  have hcompact : (ps.insertIdx i x).getD j none = x ∨
      ∃ k, (ps.insertIdx i x).getD j none = ps.getD k none := by
    by_cases hi : i ≤ ps.length
    · rw [hins hi]
      split_ifs
      exacts [.inr ⟨j, rfl⟩, .inl rfl, .inr ⟨j - 1, rfl⟩]
    · rw [List.insertIdx_of_length_lt (by omega)]
      exact .inr ⟨j, rfl⟩
  cases hn : hd.type <;> simp only [Aert.insertch, hn]
  case leaf => exact .inr ⟨j, rfl⟩
  case nodeh16 =>
      rw [setch, hput]
      split_ifs
      exacts [.inl rfl, .inr ⟨j, rfl⟩]
  all_goals exact hcompact

theorem once_insertch {hd : Head} {x : Option NodePtr} {i : Nat} (h : Once IsPlain ps)
    (hx : ¬ IsPlain x) :
    Once IsPlain (Aert.insertch hd ps i x) := by
  cases hn : hd.type <;> simp only [Aert.insertch, hn]
  case leaf => exact h
  case nodeh16 => exact h.put (fun hplain => absurd hplain hx) i
  all_goals exact h.insertIdx hx i

end Upper

section Lower

variable {uh : Head × List Tree} {ps : List (Option NodePtr)} {c : Address} {T : Tree} {pkey : Nat}

theorem createLowerHalf_single (u : UpperAt S N h p uh ps) (hdisj : ∀ q, N q → ¬ S q)
    (hc : Denotes S h (some (plain c)) T) (hnull : findch uh.1 uh.2 (pkey >>> 4) = .null) :
    (createLowerHalf (some (plain p)) (some (plain c)) pkey).wp t s n h (fun _ n' h' => n' = n ∧
      (∀ q, ¬ N q → ∀ f, h' (q, f) = h (q, f)) ∧
        ∃ ps', UpperAt S N h' p (Aert.createLowerHalf uh T pkey) ps') := by
  obtain ⟨ver, hhead⟩ := u.head
  have hfound : findch uh.1 ps (pkey >>> 4) = none := by
    have hheld := related_findch u.children held_null uh.1 (pkey >>> 4)
    rwa [hnull] at hheld
  have hnew : Aert.createLowerHalf uh T pkey = ((Aert.append uh.1 (pkey >>> 4)).2,
      Aert.insertch (Aert.append uh.1 (pkey >>> 4)).2 uh.2 (Aert.append uh.1 (pkey >>> 4)).1
        (.tagged (pkey &&& 0x0F) T)) := by
    simp only [Aert.createLowerHalf, hnull]
  rw [hnew]
  simp only [createLowerHalf, deref, plain, Prog.wp_bind, Prog.wp_pure, Prog.wp_check, Prog.wp_load,
    Prog.wp_store,
    Option.some.injEq, exists_eq_left', hhead, u.chs, hfound, append, insertch, Heap.set_self,
      Option.isSome_some,
    true_and, Heap.set_of_field_ne _ _ (show Field.chs ≠ Field.head by simp)]
  generalize hh' : Heap.set (Heap.set h p Field.head _) p Field.chs _ = h'
  have hframe : ∀ q, q ≠ p → ∀ f, h' (q, f) = h (q, f) := fun q hq f => by
    rw [← hh', Heap.set_of_ptr_ne _ _ hq, Heap.set_of_ptr_ne _ _ hq]
  have hS : ∀ q, S q → S q ∧ ∀ f, h' (q, f) = h (q, f) := fun q hq =>
    ⟨hq, hframe q fun heq => hdisj p u.own (heq ▸ hq)⟩
  refine ⟨fun q hq f => hframe q (fun heq => hq (heq ▸ u.own)) f,
    Aert.insertch (Aert.append uh.1 (pkey >>> 4)).2 ps (Aert.append uh.1 (pkey >>> 4)).1
      (some (embedPtr ⟨c, none⟩ (pkey &&& 0x0F))), ?_⟩
  constructor
  · exact u.own
  · rw [append_type]
    exact u.type
  · exact ⟨ver, by rw [← hh', Heap.set_of_field_ne _ _ (by simp), Heap.set_self]⟩
  · rw [← hh', Heap.set_self]
  · refine related_insertch (u.held hS fun q _ => hframe q) held_null ?_ _ _
    exact denotes_tagged.mpr ⟨by simp, hc.frame hS⟩
  · intro i q hi
    rcases getD_insertch with hx | ⟨k, hk⟩
    · rw [hx] at hi
      cases hi
    · rw [hk] at hi
      exact u.lower k q hi
  · exact once_insertch u.once not_isPlain_tagged

theorem createLowerHalf_lower (u : UpperAt S N h p uh ps) (hdisj : ∀ q, N q → ¬ S q)
    (hc : Denotes S h (some (plain c)) T) {lh : Head} {chs : List Tree}
    (hnode : findch uh.1 uh.2 (pkey >>> 4) = .node lh chs) :
    (createLowerHalf (some (plain p)) (some (plain c)) pkey).wp t s n h (fun _ n' h' => n' = n ∧
      (∀ q, ¬ N q → ∀ f, h' (q, f) = h (q, f)) ∧
        ∃ ps', UpperAt S N h' p (Aert.createLowerHalf uh T pkey) ps') := by
  obtain ⟨ver, hhead⟩ := u.head
  obtain ⟨idx, hidx⟩ : ∃ idx, findidx uh.1 (pkey >>> 4) = some idx := by
    cases hi : findidx uh.1 (pkey >>> 4) with
    | some idx => exact ⟨idx, rfl⟩
    | none =>
        rw [findch_eq_default hi] at hnode
        cases hnode
  have hget : uh.2.getD idx default = .node lh chs := by rw [← hnode, findch_eq_getch hidx, getch]
  obtain ⟨q, hq, htype, ⟨ver', hhead'⟩, qs, hchs', hqs⟩ : Held S h (ps.getD idx default)
      (.node lh chs) :=
    hget ▸ related_get u.children held_null idx
  obtain ⟨hown, hqp⟩ := u.lower idx q hq
  have hfound : findch uh.1 ps (pkey >>> 4) = some (plain q) := by
    rw [findch_eq_getch hidx, getch, hq]
  have hnew : Aert.createLowerHalf uh T pkey =
    (uh.1, setch uh.2 idx (.node (Aert.append lh (pkey &&& 0x0F)).2
      (Aert.insertch (Aert.append lh (pkey &&& 0x0F)).2 chs
        (Aert.append lh (pkey &&& 0x0F)).1 T))) := by
    simp only [Aert.createLowerHalf, hnode, hidx, Option.getD_some]
  rw [hnew]
  simp only [plain] at hfound
  simp only [createLowerHalf, deref, plain, Prog.wp_bind, Prog.wp_pure, Prog.wp_check, Prog.wp_load,
    Prog.wp_store,
    Option.some.injEq, exists_eq_left', hhead, u.chs, hfound, append, insertch, hhead', hchs',
      Heap.set_self,
    Option.isSome_some, true_and, Heap.set_of_field_ne _ _ (show Field.chs ≠ Field.head by simp)]
  generalize hh' : Heap.set (Heap.set h q Field.head _) q Field.chs _ = h'
  have hframe : ∀ x, x ≠ q → ∀ f, h' (x, f) = h (x, f) := fun x hx f => by
    rw [← hh', Heap.set_of_ptr_ne _ _ hx, Heap.set_of_ptr_ne _ _ hx]
  have hS : ∀ x, S x → S x ∧ ∀ f, h' (x, f) = h (x, f) := fun x hx =>
    ⟨hx, hframe x fun heq => hdisj q hown (heq ▸ hx)⟩
  refine ⟨fun x hx f => hframe x (fun heq => hx (heq ▸ hown)) f, ps, ?_⟩
  constructor
  · exact u.own
  · exact u.type
  · exact ⟨ver, by rw [hframe p hqp.symm, hhead]⟩
  · rw [hframe p hqp.symm, u.chs]
  · have hlt : idx < uh.2.length := by
      by_contra hge
      rw [List.getD_eq_getElem?_getD, List.getElem?_eq_none (not_lt.mp hge)] at hget
      cases hget
    refine related_replace u.children held_null (fun j hj hheld => ?_) hlt ?_
    · refine hheld.frame hS fun x hx => hframe x fun heq => ?_
      rw [heq] at hx
      exact hj (u.once j idx ⟨q, hx⟩ (hx.trans hq.symm))
    · refine ⟨q, hq, by rw [append_type]; exact htype, ⟨ver', ?_⟩,
        Aert.insertch (Aert.append lh (pkey &&& 0x0F)).2 qs (Aert.append lh (pkey &&& 0x0F)).1
          (some ⟨c, none⟩), ?_, ?_⟩
      · rw [← hh', Heap.set_of_field_ne _ _ (by simp), Heap.set_self]
      · rw [← hh', Heap.set_self]
      · exact related_insertch (forall₂_frame hqs hS) denotes_null (hc.frame hS) _ _
  · exact u.lower
  · exact u.once

theorem Halves.place {old : Head} {F : Nat → Tree} {d : Nat} (hs : Halves old pkey uh F)
    (hd' : d ∈ pkey :: old.keys) (hF : F d = .null) :
    findch uh.1 uh.2 (d >>> 4) = .null ∨ ∃ lh chs, findch uh.1 uh.2 (d >>> 4) = .node lh chs := by
  rw [hi_eq]
  by_cases hsz : 2 ≤ chSz old pkey (d / 16)
  · obtain ⟨lh, chs, hnode, -⟩ := hs.lower (d / 16) hsz
    exact .inr ⟨lh, chs, hnode⟩
  · rcases hs.single (d / 16) (by omega) with ⟨hnull, -⟩ | ⟨l, hl, hne, -⟩
    · exact .inl hnull
    · have hother : d / 16 * 16 + l ≠ d := fun heq => by
        rw [heq] at hne
        exact hne hF
      exact absurd (two_le_chSz (hs.support _ hne) hd' hother (by omega)) hsz

structure HalvesAt (S N : Address → Prop) (h : NodeHeap) (p : Address) (old : Head) (pkey : Nat)
    (uh : Head × List Tree) (F : Nat → Tree) : Prop where
  halves : Halves old pkey uh F
  upper : ∃ ps, UpperAt S N h p uh ps

variable {old : Head} {F : Nat → Tree}

theorem createLowerHalf_spec {d : Nat} (u : HalvesAt S N h p old pkey uh F)
    (hdisj : ∀ q, N q → ¬ S q)
    (hlt : ∀ d ∈ pkey :: old.keys, d < 256) (hd' : d ∈ pkey :: old.keys) (hF : F d = .null)
    (hT : T ≠ .null) (hc : Denotes S h (some (plain c)) T) :
    (createLowerHalf (some (plain p)) (some (plain c)) d).wp t s n h (fun _ n' h' => n' = n ∧
      (∀ q, ¬ N q → ∀ f, h' (q, f) = h (q, f)) ∧
        HalvesAt S N h' p old pkey (Aert.createLowerHalf uh T d) (Function.update F d T)) := by
  obtain ⟨halves, ps, hu⟩ := u
  have hnext := halves.step hlt hd' hF hT
  rcases Halves.place halves hd' hF with hnull | ⟨lh, chs, hnode⟩
  · apply Prog.wp_mono (createLowerHalf_single hu hdisj hc hnull)
    rintro _ n' h' ⟨hn, hframe, hupper⟩
    exact ⟨hn, hframe, hnext, hupper⟩
  · apply Prog.wp_mono (createLowerHalf_lower hu hdisj hc hnode)
    rintro _ n' h' ⟨hn, hframe, hupper⟩
    exact ⟨hn, hframe, hnext, hupper⟩

/-- The loop of `handle_split`. -/
theorem createLowerHalves_spec {h₀ : NodeHeap} (hdisj : ∀ q, N q → ¬ S q)
    (hlt : ∀ d ∈ pkey :: old.keys, d < 256)
    {rs : List (Nat × Option NodePtr)} {es : List (Nat × Tree)}
    (hrs : List.Forall₂ (fun r e => r.1 = e.1 ∧ ∃ c, r.2 = some (plain c) ∧
    Denotes S h₀ (some (plain c)) e.2) rs es)
    (hS : ∀ q, S q → ∀ f, h (q, f) = h₀ (q, f)) (u : HalvesAt S N h p old pkey uh F)
    (hnodup : (es.map Prod.fst).Nodup)
    (hes : ∀ e ∈ es, e.1 ∈ pkey :: old.keys ∧ F e.1 = .null ∧ e.2 ≠ .null) :
    (rs.forM (fun e => createLowerHalf (some (plain p)) e.2 e.1)).wp t s n h
    (fun _ n' h' => n' = n ∧
      (∀ q, ¬ N q → ∀ f, h' (q, f) = h (q, f)) ∧
        HalvesAt S N h' p old pkey (es.foldl (fun uh e => Aert.createLowerHalf uh e.2 e.1) uh)
          (es.foldl (fun F e => Function.update F e.1 e.2) F)) := by
  induction hrs generalizing h uh F with
  | nil =>
      change (pure () : AertProg Unit).wp t s n h _
      rw [Prog.wp_pure]
      exact ⟨rfl, fun _ _ _ => rfl, u⟩
  | @cons r e rs es hr _ ih =>
      obtain ⟨hkey, c, hc, hden⟩ := hr
      obtain ⟨he, hnodup⟩ := List.nodup_cons.mp hnodup
      obtain ⟨hmem, hF, hne⟩ := hes e List.mem_cons_self
      have hden' : Denotes S h (some (plain c)) e.2 := hden.frame fun q hq => ⟨hq, hS q hq⟩
      change (createLowerHalf (some (plain p)) r.2 r.1 >>= fun _ =>
        rs.forM (fun e => createLowerHalf (some (plain p)) e.2 e.1)).wp t s n h _
      rw [Prog.wp_bind, hc, hkey]
      apply Prog.wp_mono (createLowerHalf_spec u hdisj hlt hmem hF hne hden')
      rintro _ n₁ h₁ ⟨rfl, hframe, u₁⟩
      have hS₁ : ∀ q, S q → ∀ f, h₁ (q, f) = h₀ (q, f) := fun q hq f =>
        (hframe q (fun hN => hdisj q hN hq) f).trans (hS q hq f)
      have hes₁ : ∀ e' ∈ es, e'.1 ∈ pkey :: old.keys ∧ Function.update F e.1 e.2 e'.1 = .null ∧
          e'.2 ≠ .null := by
        intro e' he'
        obtain ⟨hmem', hF', hne'⟩ := hes e' (List.mem_cons_of_mem e he')
        have hother : e'.1 ≠ e.1 := fun heq => he (heq ▸ List.mem_map_of_mem he')
        exact ⟨hmem', (Function.update_of_ne hother _ _).trans hF', hne'⟩
      apply Prog.wp_mono (ih hS₁ u₁ hnodup hes₁)
      rintro _ n₂ h₂ ⟨rfl, hframe', u₂⟩
      exact ⟨rfl, fun q hq f => (hframe' q hq f).trans (hframe q hq f), u₂⟩

end Lower

section Upper

variable {uh : Head × List Tree} {ps : List (Option NodePtr)} {old : Head} {m ver pkey : Nat}

theorem newNodeh_inner (size pfxOfs pfxLen key : Nat) :
    (newNodeh size pfxOfs pfxLen key).type ≠ .leaf := by
  simp only [newNodeh, newNode]
  split <;> simp

theorem upperStep_spec (u : UpperAt S (Ptr.Between t s m n) h p uh ps) (hmn : m ≤ n)
    (hS : ∀ q, S q → ¬ q.Fresh t s m) (idx : Nat) :
    (upperStep p old ver pkey idx).wp t s n h (fun _ n' h' => m ≤ n' ∧
      (∀ q, ¬ q.Fresh t s m → ∀ f, h' (q, f) = h (q, f)) ∧
        ∃ ps', UpperAt S (Ptr.Between t s m n') h' p (Aert.upperStep old pkey uh idx) ps') := by
  rw [upperStep, Aert.upperStep]
  by_cases hsz : chSz old pkey idx > 1
  · rw [if_pos hsz, if_pos hsz, lowerHalf]
    obtain ⟨ver', hhead⟩ := u.head
    have hinner := newNodeh_inner (chSz old pkey idx) (old.pfxOfs + old.pfxLen + 4) 0 0
    generalize newNodeh (chSz old pkey idx) (old.pfxOfs + old.pfxLen + 4) 0 0 = new at hinner
    generalize hq : (⟨t, s, n, new.type⟩ : Address) = q
    have hqn : ¬ q.Between t s m n := by
      subst hq
      simp
    have hqn' : q.Between t s m (n + 1) := by
      subst hq
      simp [hmn]
    have hpq : p ≠ q := fun heq => hqn (heq ▸ u.own)
    simp only [append, storeCh, Prog.wp_bind, Prog.wp_pure, Prog.wp_load, Prog.wp_store,
      Prog.wp_new,
      Option.some.injEq, exists_eq_left', hhead, Option.isSome_some, true_and, hq,
        Heap.place_of_ne _ _ _ hpq,
      Heap.set_of_field_ne _ _ (show Field.chs ≠ Field.head by simp), u.chs]
    generalize hh' : Heap.set (Heap.place (Heap.set h p Field.head _) q _) p Field.chs _ = h'
    have hframe : ∀ x, x ≠ p → x ≠ q → ∀ f, h' (x, f) = h (x, f) := fun x hxp hxq f => by
      rw [← hh', Heap.set_of_ptr_ne _ _ hxp, Heap.place_of_ne _ _ _ hxq, Heap.set_of_ptr_ne _ _ hxp]
    have hcells : ∀ f, h' (q, f) = innerCells ver new [] f := fun f => by
      rw [← hh', Heap.set_of_ptr_ne _ _ hpq.symm, Heap.place_self]
    refine ⟨Nat.le_succ_of_le hmn, fun x hx f => hframe x (u.own.fresh.ne hx) (hqn'.fresh.ne hx) f,
      setch ps (Aert.append uh.1 idx).1 (some (plain q)), ?_⟩
    constructor
    · exact u.own.mono (Nat.le_succ n)
    · rw [append_type]
      exact u.type
    · refine ⟨ver', ?_⟩
      rw [← hh', Heap.set_of_field_ne _ _ (by simp), Heap.place_of_ne _ _ _ hpq, Heap.set_self]
    · rw [← hh', Heap.set_self]
    · refine related_put
        (u.held (fun x hx => ⟨hx, hframe x (u.own.fresh.ne (hS x hx)) (hqn'.fresh.ne (hS x hx))⟩)
        fun x hx hxp => hframe x hxp fun heq => hqn (heq ▸ hx)) held_null ?_ _
      exact ⟨q, rfl, hinner, ⟨ver, hcells Field.head⟩, [], hcells Field.chs, .nil⟩
    · intro i x hi
      rw [setch, show none = (default : Option NodePtr) from rfl, getD_put] at hi
      split_ifs at hi
      · obtain rfl : q = x := plain_inj.mp (Option.some.inj hi)
        exact ⟨hqn', hpq.symm⟩
      · exact ⟨(u.lower i x hi).1.mono (Nat.le_succ n), (u.lower i x hi).2⟩
    · refine u.once.put (fun _ k hk => hqn (u.lower k q hk).1) _
  · rw [if_neg hsz, if_neg hsz, Prog.wp_pure]
    exact ⟨hmn, fun _ _ _ => rfl, ps, u⟩

theorem upperSteps_spec (u : UpperAt S (Ptr.Between t s m n) h p uh ps) (hmn : m ≤ n)
    (hS : ∀ q, S q → ¬ q.Fresh t s m) (idxs : List Nat) :
    (idxs.forM (upperStep p old ver pkey)).wp t s n h (fun _ n' h' => m ≤ n' ∧
      (∀ q, ¬ q.Fresh t s m → ∀ f, h' (q, f) = h (q, f)) ∧
        ∃ ps', UpperAt S (Ptr.Between t s m n') h' p
        (idxs.foldl (Aert.upperStep old pkey) uh) ps') := by
  induction idxs generalizing n h uh ps with
  | nil =>
      change (pure () : AertProg Unit).wp t s n h _
      rw [Prog.wp_pure]
      exact ⟨hmn, fun _ _ _ => rfl, ps, u⟩
  | cons idx idxs ih =>
      change (upperStep p old ver pkey idx >>=
        fun _ => idxs.forM (upperStep p old ver pkey)).wp t s n h _
      rw [Prog.wp_bind]
      apply Prog.wp_mono (upperStep_spec u hmn hS idx)
      rintro _ n₁ h₁ ⟨hmn₁, hframe, ps₁, u₁⟩
      apply Prog.wp_mono (ih u₁ hmn₁)
      rintro _ n₂ h₂ ⟨hmn₂, hframe', hu₂⟩
      exact ⟨hmn₂, fun q hq f => (hframe' q hq f).trans (hframe q hq f), hu₂⟩

theorem createUpperHalf_spec {q : Address} {v : Nat} (hhead : h (q, Field.head) = some (v, old))
    (hS : ∀ x, S x → ¬ x.Fresh t s n) :
    (createUpperHalf q ver pkey).wp t s n h (fun p n' h' =>
      (∀ x, ¬ x.Fresh t s n → ∀ f, h' (x, f) = h (x, f)) ∧
        ∃ ps, UpperAt S (Ptr.Between t s n n') h' p (Aert.createUpperHalf old pkey) ps) := by
  have hnew : Aert.createUpperHalf old pkey = (List.range 16).foldl (Aert.upperStep old pkey)
      (newNodeh ((List.range 16).countP (chSz old pkey · ≠ 0)) old.pfxOfs old.pfxLen old.pfx,
        []) := rfl
  have hinner :=
    newNodeh_inner ((List.range 16).countP (chSz old pkey · ≠ 0)) old.pfxOfs old.pfxLen old.pfx
  rw [hnew]
  simp only [createUpperHalf, Prog.wp_bind, Prog.wp_load, hhead, Option.some.injEq, exists_eq_left',
    Prog.wp_new,
    Prog.wp_pure]
  generalize newNodeh ((List.range 16).countP (chSz old pkey · ≠ 0)) old.pfxOfs old.pfxLen old.pfx =
    new at hinner
  have hu : UpperAt S (Ptr.Between t s n (n + 1))
    (h.place ⟨t, s, n, new.type⟩ (innerCells ver new []))
      ⟨t, s, n, new.type⟩ (new, []) [] := by
    constructor
    · simp
    · exact hinner
    · exact ⟨ver, by rw [Heap.place_self]; rfl⟩
    · rw [Heap.place_self]
      rfl
    · exact .nil
    · intro i x hi
      simp at hi
    · intro i j hi
      obtain ⟨x, hx⟩ := hi
      simp at hx
  apply Prog.wp_mono (upperSteps_spec hu (Nat.le_succ n) hS (List.range 16))
  rintro _ n' h' ⟨-, hframe, hu'⟩
  exact ⟨fun x hx f => (hframe x hx f).trans
    (Heap.place_of_ne _ _ _ (Ptr.Fresh.ne (by simp) hx)), hu'⟩

end Upper

end Contrees.Trees.Aert.Cow
