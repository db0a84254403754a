import Contrees.Trees.ArtHandlers
import Contrees.Trees.ArtOrdered

namespace Contrees.Trees.Art

open Library Library.Memory Library.Slots Conctrl

section Denotation

variable {S S' : NodePtr → Prop} {h h' : NodeHeap}

mutual

/-- The tree that a heap holds under a pointer, all of its nodes in `S`. -/
def Denotes (S : NodePtr → Prop) (h : NodeHeap) : Option NodePtr → Tree → Prop
  | r, .null => r = none
  | r, .leaf hd val => ∃ p, r = some p ∧ S p ∧ hd.type = .leaf ∧
      (∃ ver, h (p, Field.head) = some (ver, hd)) ∧ h (p, Field.val) = some val
  | r, .node hd chs => ∃ p, r = some p ∧ S p ∧ hd.type ≠ .leaf ∧
      (∃ ver, h (p, Field.head) = some (ver, hd)) ∧
      ∃ ps, h (p, Field.chs) = some ps ∧ DenotesList S h ps chs

def DenotesList (S : NodePtr → Prop) (h : NodeHeap) : List (Option NodePtr) → List Tree → Prop
  | rs, [] => rs = []
  | rs, t :: ts => ∃ q qs, rs = q :: qs ∧ Denotes S h q t ∧ DenotesList S h qs ts

end

theorem denotesList_iff {rs : List (Option NodePtr)} {ts : List Tree} :
    DenotesList S h rs ts ↔ List.Forall₂ (Denotes S h) rs ts := by
  induction ts generalizing rs with
  | nil => simp [DenotesList]
  | cons t ts ih =>
      cases rs with
      | nil => simp [DenotesList]
      | cons r rs => simp [DenotesList, ih]

theorem denotes_null : Denotes S h default default := by
  change Denotes S h none .null
  rw [Denotes]

theorem denotes_node {p : NodePtr} {hd : Head} {chs : List Tree} :
    Denotes S h (some p) (.node hd chs) ↔ S p ∧ hd.type ≠ .leaf ∧
      (∃ ver, h (p, Field.head) = some (ver, hd)) ∧
      ∃ ps, h (p, Field.chs) = some ps ∧ List.Forall₂ (Denotes S h) ps chs := by
  simp only [Denotes, denotesList_iff, Option.some.injEq, exists_eq_left']

theorem denotes_leaf {p : NodePtr} {hd : Head} {val : Nat} :
    Denotes S h (some p) (.leaf hd val) ↔ S p ∧ hd.type = .leaf ∧
      (∃ ver, h (p, Field.head) = some (ver, hd)) ∧ h (p, Field.val) = some val := by
  simp only [Denotes, Option.some.injEq, exists_eq_left']

mutual

theorem Denotes.frame {r : Option NodePtr} {t : Tree} (hr : Denotes S h r t)
    (hS : ∀ q, S q → S' q ∧ ∀ f, h' (q, f) = h (q, f)) : Denotes S' h' r t := by
  match t with
  | .null => exact hr
  | .leaf hd val =>
      obtain ⟨p, rfl, hs, htype, ⟨ver, hhead⟩, hval⟩ := hr
      exact ⟨p, rfl, (hS p hs).1, htype,
        ⟨ver, by rw [(hS p hs).2, hhead]⟩, by rw [(hS p hs).2, hval]⟩
  | .node hd chs =>
      obtain ⟨p, rfl, hs, htype, ⟨ver, hhead⟩, ps, hchs, hps⟩ := hr
      exact ⟨p, rfl, (hS p hs).1, htype, ⟨ver, by rw [(hS p hs).2, hhead]⟩, ps,
        by rw [(hS p hs).2, hchs], hps.frame hS⟩

theorem DenotesList.frame {rs : List (Option NodePtr)} {ts : List Tree} (hr : DenotesList S h rs ts)
    (hS : ∀ q, S q → S' q ∧ ∀ f, h' (q, f) = h (q, f)) : DenotesList S' h' rs ts := by
  match ts with
  | [] => exact hr
  | t :: ts =>
      obtain ⟨q, qs, rfl, hq, hqs⟩ := hr
      exact ⟨q, qs, rfl, hq.frame hS, hqs.frame hS⟩

end

mutual

theorem Denotes.unique {r : Option NodePtr} {t t' : Tree} (hr : Denotes S h r t)
    (hr' : Denotes S' h r t') : t = t' := by
  match t with
  | .null =>
      obtain rfl : r = none := hr
      match t' with
      | .null => rfl
      | .leaf hd val =>
          obtain ⟨p, hp, -⟩ := hr'
          cases hp
      | .node hd chs =>
          obtain ⟨p, hp, -⟩ := hr'
          cases hp
  | .leaf hd val =>
      obtain ⟨p, rfl, hs, htype, ⟨ver, hhead⟩, hval⟩ := hr
      match t' with
      | .null => cases (hr' : some p = none)
      | .leaf hd' val' =>
          obtain ⟨p', hp', -, -, ⟨ver', hhead'⟩, hval'⟩ := hr'
          obtain rfl := Option.some.inj hp'
          have hh := (Prod.mk.inj (Option.some.inj (hhead.symm.trans hhead'))).2
          have hv := Option.some.inj (hval.symm.trans hval')
          rw [hh, hv]
      | .node hd' chs' =>
          obtain ⟨p', hp', -, htype', ⟨ver', hhead'⟩, -⟩ := hr'
          obtain rfl := Option.some.inj hp'
          have hh := (Prod.mk.inj (Option.some.inj (hhead.symm.trans hhead'))).2
          exact absurd (hh ▸ htype) htype'
  | .node hd chs =>
      obtain ⟨p, rfl, hs, htype, ⟨ver, hhead⟩, ps, hchs, hps⟩ := hr
      match t' with
      | .null => cases (hr' : some p = none)
      | .leaf hd' val' =>
          obtain ⟨p', hp', -, htype', ⟨ver', hhead'⟩, -⟩ := hr'
          obtain rfl := Option.some.inj hp'
          have hh := (Prod.mk.inj (Option.some.inj (hhead.symm.trans hhead'))).2
          exact absurd (hh ▸ htype') htype
      | .node hd' chs' =>
          obtain ⟨p', hp', -, -, ⟨ver', hhead'⟩, ps', hchs', hps'⟩ := hr'
          obtain rfl := Option.some.inj hp'
          have hh := (Prod.mk.inj (Option.some.inj (hhead.symm.trans hhead'))).2
          obtain rfl := Option.some.inj (hchs.symm.trans hchs')
          rw [hh, hps.unique hps']

theorem DenotesList.unique {rs : List (Option NodePtr)} {ts ts' : List Tree}
    (hr : DenotesList S h rs ts) (hr' : DenotesList S' h rs ts') : ts = ts' := by
  match ts with
  | [] =>
      obtain rfl : rs = [] := hr
      match ts' with
      | [] => rfl
      | t' :: ts' =>
          obtain ⟨q, qs, hnil, -⟩ := hr'
          cases hnil
  | t :: ts =>
      obtain ⟨q, qs, rfl, hq, hqs⟩ := hr
      match ts' with
      | [] => cases (hr' : q :: qs = [])
      | t' :: ts' =>
          obtain ⟨q', qs', heq, hq', hqs'⟩ := hr'
          injection heq with hqq hqqs
          subst hqq hqqs
          rw [hq.unique hq', hqs.unique hqs']

end

end Denotation

section Trees

def nodeForkTree (hd : Head) (old : Head → Tree) (ofs pmlen key val : Nat) : Tree :=
  let pk0 := partialKey hd.pfx (hd.pfxOfs + pmlen)
  let pk1 := partialKey key (ofs + pmlen)
  .node (forkHead ofs pmlen key pk0 pk1)
    (pairUp pk0 pk1 (old (shortenCow hd pmlen)) (newLeaf (ofs + pmlen + 1) key val))

mutual

def cowUpdate (key val : Nat) : Tree → Nat → Tree
  | .null, ofs => newLeaf ofs key val
  | .leaf hd old, ofs =>
      if prefixMatch hd key < hd.pfxLen then
        nodeForkTree hd (.leaf · old) ofs (prefixMatch hd key) key val
      else .leaf hd val
  | .node hd chs, ofs =>
      if prefixMatch hd key < hd.pfxLen then
        nodeForkTree hd (.node · chs) ofs (prefixMatch hd key) key val
      else
        let pkey := partialKey key (ofs + hd.pfxLen)
        match findIdx hd pkey with
        | some idx =>
            .node hd (setch hd chs idx
              (cowUpdateAt key val chs (slot hd idx) (ofs + hd.pfxLen + 1)))
        | none =>
            let (idx, new) := append (if isFull hd then nodeExtend hd else hd) pkey
            .node new (setch new (copychAt new hd chs idx) idx
              (newLeaf (ofs + hd.pfxLen + 1) key val))

def cowUpdateAt (key val : Nat) : List Tree → Nat → Nat → Tree
  | [], _, ofs => newLeaf ofs key val
  | t :: _, 0, ofs => cowUpdate key val t ofs
  | _ :: ts, i + 1, ofs => cowUpdateAt key val ts i ofs

end

theorem cowUpdateAt_eq (key val : Nat) (chs : List Tree) (i ofs : Nat) :
    cowUpdateAt key val chs i ofs = cowUpdate key val (chs.getD i .null) ofs :=
  congrFun (at_eq Tree.null (fun _ => by funext ofs; rw [cowUpdateAt, cowUpdate]) (fun _ _ => rfl)
    (fun _ _ _ => rfl) chs i) ofs

theorem cowUpdate_node (key val ofs : Nat) (hd : Head) (chs : List Tree) :
    cowUpdate key val (.node hd chs) ofs =
      if prefixMatch hd key < hd.pfxLen then
        nodeForkTree hd (.node · chs) ofs (prefixMatch hd key) key val
      else
        match findIdx hd (partialKey key (ofs + hd.pfxLen)) with
        | some idx => .node hd (setch hd chs idx
            (cowUpdate key val (getch hd chs idx) (ofs + hd.pfxLen + 1)))
        | none =>
            .node (append (if isFull hd then nodeExtend hd else hd)
                (partialKey key (ofs + hd.pfxLen))).2
              (setch (append (if isFull hd then nodeExtend hd else hd)
                  (partialKey key (ofs + hd.pfxLen))).2
                (copychAt (append (if isFull hd then nodeExtend hd else hd)
                    (partialKey key (ofs + hd.pfxLen))).2 hd chs
                  (append (if isFull hd then nodeExtend hd else hd)
                    (partialKey key (ofs + hd.pfxLen))).1)
                (append (if isFull hd then nodeExtend hd else hd)
                  (partialKey key (ofs + hd.pfxLen))).1
                (newLeaf (ofs + hd.pfxLen + 1) key val)) := by
  simp only [cowUpdate, cowUpdateAt_eq]
  rfl

end Trees

section Run

variable {next : Nat → Context → Nat} {t s n m ofs : Nat} {h : NodeHeap} {ctx : Context}
  {p tp : NodePtr} {hd : Head} {T : Tree}

/-- The rest of a run ends with `T'` under `tp`, and touches nodes in `F` only. -/
def Finishes (next : Nat → Context → Nat) (t s : Nat) (ctx : Context) (h : NodeHeap)
    (F : NodePtr → Prop) (tp : NodePtr) (T' : Tree) : Prop :=
  interface.Ends next t s ctx h (fun ctx' h' => ctx'.root = ctx.root ∧
    Denotes (Ptr.Before (t + 1)) h' (some tp) T' ∧ ∀ x, ¬ F x → ∀ f, h' (x, f) = h (x, f))

/-- What `update_cow` makes of a tree, once its caller has stored the new node,
the rest of the run updates. -/
def Enters (next : Nat → Context → Nat) (t ofs : Nat) (T : Tree) : Prop :=
  ∀ ⦃s n : Nat⦄ ⦃h : NodeHeap⦄ (ctx : Context), Denotes (Ptr.Before t) h ctx.tPast T →
    ctx.keyOfs = ofs →
    (updateCow ctx).wp t s n h (fun r n' h' => r.1.Between t s n n' ∧ r.2.root = ctx.root ∧
      (∀ x, ¬ x.Fresh t s n → ∀ f, h' (x, f) = h (x, f)) ∧
      ∀ {s₁ : Nat} {h₁ : NodeHeap}, s < s₁ →
        (∀ x, x.Fresh t s n ∨ x.Before t → ∀ f, h₁ (x, f) = h' (x, f)) →
        ∀ root, Finishes next t s₁ { r.2 with root := root, tCur := some r.1 } h₁
          (Ptr.Fresh t s n) r.1 (cowUpdate ctx.key ctx.val T ofs))

theorem place_frame {cs : (f : Field) → Option (Cell f)} (hp : p.Fresh t s n) (x : NodePtr)
    (hx : ¬ x.Fresh t s n) (f : Field) : h.place p cs (x, f) = h (x, f) :=
  Heap.place_of_ne h cs f (hp.ne hx)

theorem enters_null : Enters next t ofs .null := by
  intro s n h ctx hpast hofs
  obtain rfl := hofs
  have hnone : ctx.tPast = none := hpast
  simp only [updateCow, hnone, allocLeaf, Prog.wp_bind, Prog.wp_new, Prog.wp_pure]
  refine ⟨by simp, trivial, place_frame (by simp), fun {s₁ h₁} hs hagree root => ?_⟩
  refine Handlers.Ends.done rfl ⟨rfl, ?_, fun _ _ _ => rfl⟩
  rw [cowUpdate, newLeaf, denotes_leaf]
  refine ⟨Nat.lt_succ_self t, rfl, ⟨ctx.sno, ?_⟩, ?_⟩
  · rw [hagree _ (.inl (by simp)), Heap.place_self]
    rfl
  · rw [hagree _ (.inl (by simp)), Heap.place_self]
    rfl

theorem nodeCopy_leaf {ver v val : Nat} (Q : NodePtr → Nat → NodeHeap → Prop)
    (hhead : h (p, Field.head) = some (v, hd)) (htype : hd.type = .leaf)
    (hval : h (p, Field.val) = some val)
    (hQ : Q ⟨t, s, n, hd.type⟩ (n + 1) (h.place ⟨t, s, n, hd.type⟩ (leafCells ver hd val))) :
    (nodeCopy p ver).wp t s n h Q := by
  rw [htype] at hQ
  simpa only [nodeCopy, Prog.wp_bind, Prog.wp_load, hhead, Option.some.injEq, exists_eq_left',
    htype,
    if_true, hval, Prog.wp_new] using hQ

theorem nodeCopy_inner {ver v : Nat} (Q : NodePtr → Nat → NodeHeap → Prop)
    (hhead : h (p, Field.head) = some (v, hd)) (htype : hd.type ≠ .leaf)
    (hQ : Q ⟨t, s, n, hd.type⟩ (n + 1) (h.place ⟨t, s, n, hd.type⟩ (innerCells ver hd []))) :
    (nodeCopy p ver).wp t s n h Q := by
  simpa only [nodeCopy, Prog.wp_bind, Prog.wp_load, hhead, Option.some.injEq, exists_eq_left',
    htype,
    if_false, Prog.wp_new] using hQ

theorem copych_leaf {q : NodePtr} {v : Nat} {Q : Unit → Nat → NodeHeap → Prop}
    (hhead : h (q, Field.head) = some (v, hd)) (htype : hd.type = .leaf) (hQ : Q () n h) :
    (copych q p).wp t s n h Q := by
  simpa only [copych, Prog.wp_bind, Prog.wp_load, hhead, Option.some.injEq, exists_eq_left', htype,
    if_true, Prog.wp_pure] using hQ

theorem copych_inner {q : NodePtr} {v : Nat} {ps : List (Option NodePtr)}
    {Q : Unit → Nat → NodeHeap → Prop} (hhead : h (q, Field.head) = some (v, hd))
    (htype : hd.type ≠ .leaf) (hchs : h (p, Field.chs) = some ps)
    (hsome : (h (q, Field.chs)).isSome) (hQ : Q () n (h.set q Field.chs ps)) :
    (copych q p).wp t s n h Q := by
  simpa only [copych, Prog.wp_bind, Prog.wp_load, hhead, Option.some.injEq, exists_eq_left', htype,
    if_false, hchs, Prog.wp_store, hsome, true_and] using hQ

def forkedHeap (h : NodeHeap) (t s n : Nat) (ctx : Context) (hd : Head) (m : Nat)
    (cs : (f : Field) → Option (Cell f)) : NodeHeap :=
  (((h.place ⟨t, s, n, hd.type⟩ cs).set ⟨t, s, n, hd.type⟩ Field.head
    (ctx.sno, shortenCow hd m)).place ⟨t, s, n + 1, .leaf⟩
      (leafCells ctx.sno (newNode .leaf (ctx.keyOfs + m + 1) (8 - (ctx.keyOfs + m + 1)) ctx.key)
        ctx.val)).place ⟨t, s, n + 1 + 1, .node4⟩
      (innerCells ctx.sno (forkHead ctx.keyOfs m ctx.key (partialKey hd.pfx (hd.pfxOfs + m))
        (partialKey ctx.key (ctx.keyOfs + m)))
        (pairUp (partialKey hd.pfx (hd.pfxOfs + m)) (partialKey ctx.key (ctx.keyOfs + m))
          (some ⟨t, s, n, hd.type⟩) (some ⟨t, s, n + 1, .leaf⟩)))

theorem nodeForkCow_spec {v : Nat} {cs : (f : Field) → Option (Cell f)}
    (hold : p.Before t) (hhead : h (p, Field.head) = some (v, hd))
    (hcs : cs Field.head = some (ctx.sno, hd))
    (hcopy : ∀ Q : NodePtr → Nat → NodeHeap → Prop,
      Q ⟨t, s, n, hd.type⟩ (n + 1) (h.place ⟨t, s, n, hd.type⟩ cs) →
        (nodeCopy p ctx.sno).wp t s n h Q) :
    (nodeForkCow ctx p m).wp t s n h (fun r n' h' =>
      r = (⟨t, s, n + 1 + 1, .node4⟩, { ctx with
        keyOfs := ctx.keyOfs + m
        chIdx := if partialKey ctx.key (ctx.keyOfs + m) < partialKey hd.pfx (hd.pfxOfs + m) then 1
          else 0 }) ∧ n' = n + 1 + 1 + 1 ∧ h' = forkedHeap h t s n ctx hd m cs) := by
  have hne : p ≠ ⟨t, s, n, hd.type⟩ := fun heq => hold.not_fresh s n (by rw [heq]; simp)
  simp only [nodeForkCow, Prog.wp_bind]
  apply hcopy
  simp only [allocLeaf, Prog.wp_load, Prog.wp_store, Prog.wp_new, Prog.wp_pure,
    Heap.place_self, hcs, Option.some.injEq, exists_eq_left', Option.isSome_some, true_and,
    Heap.set_of_ptr_ne _ _ hne, Heap.place_of_ne _ _ _ hne, hhead, forkedHeap]

section Fork

variable {cs : (f : Field) → Option (Cell f)} {h₁ h₂ : NodeHeap}

theorem forkedHeap_frame {x : NodePtr} (hx : ¬ x.Fresh t s n) (f : Field) :
    forkedHeap h t s n ctx hd m cs (x, f) = h (x, f) := by
  have hne : ∀ {i : Nat} {site : NodeType}, n ≤ i → x ≠ ⟨t, s, i, site⟩ := fun hi heq =>
    hx (by rw [heq]; simp [hi])
  rw [forkedHeap, Heap.place_of_ne _ _ _ (hne (by omega)), Heap.place_of_ne _ _ _ (hne (by omega)),
    Heap.set_of_ptr_ne _ _ (hne (le_refl n)), Heap.place_of_ne _ _ _ (hne (le_refl n))]

theorem serial_ne {i j : Nat} {a b : NodeType} (hij : i ≠ j) :
    (⟨t, s, i, a⟩ : NodePtr) ≠ ⟨t, s, j, b⟩ := fun heq => hij (Ptr.mk.inj heq).2.2.1

theorem forkedHeap_old (f : Field) : forkedHeap h t s n ctx hd m cs (⟨t, s, n, hd.type⟩, f) =
    ((h.place ⟨t, s, n, hd.type⟩ cs).set ⟨t, s, n, hd.type⟩ Field.head
      (ctx.sno, shortenCow hd m)) (⟨t, s, n, hd.type⟩, f) := by
  rw [forkedHeap, Heap.place_of_ne _ _ _ (serial_ne (by omega)), Heap.place_of_ne _ _ _
    (serial_ne (by omega))]

theorem forkedHeap_leaf (f : Field) : forkedHeap h t s n ctx hd m cs (⟨t, s, n + 1, .leaf⟩, f) =
    leafCells ctx.sno (newNode .leaf (ctx.keyOfs + m + 1) (8 - (ctx.keyOfs + m + 1)) ctx.key)
      ctx.val f := by
  rw [forkedHeap, Heap.place_of_ne _ _ _ (serial_ne (by omega)), Heap.place_self]

theorem forkedHeap_par (f : Field) : forkedHeap h t s n ctx hd m cs (⟨t, s, n + 1 + 1, .node4⟩, f) =
    innerCells ctx.sno (forkHead ctx.keyOfs m ctx.key (partialKey hd.pfx (hd.pfxOfs + m))
        (partialKey ctx.key (ctx.keyOfs + m)))
      (pairUp (partialKey hd.pfx (hd.pfxOfs + m)) (partialKey ctx.key (ctx.keyOfs + m))
        (some ⟨t, s, n, hd.type⟩) (some ⟨t, s, n + 1, .leaf⟩)) f := by
  rw [forkedHeap, Heap.place_self]

theorem fork_denotes {old : Head → Tree}
    (hcopy : Denotes (Ptr.Before (t + 1)) h₂ (some ⟨t, s, n, hd.type⟩) (old (shortenCow hd m)))
    (hleaf : ∀ f, h₂ (⟨t, s, n + 1, .leaf⟩, f) =
      forkedHeap h t s n ctx hd m cs (⟨t, s, n + 1, .leaf⟩, f))
    (hpar : ∀ f, h₂ (⟨t, s, n + 1 + 1, .node4⟩, f) =
      forkedHeap h t s n ctx hd m cs (⟨t, s, n + 1 + 1, .node4⟩, f)) :
    Denotes (Ptr.Before (t + 1)) h₂ (some ⟨t, s, n + 1 + 1, .node4⟩)
      (nodeForkTree hd old ctx.keyOfs m ctx.key ctx.val) := by
  have hnew : Denotes (Ptr.Before (t + 1)) h₂ (some ⟨t, s, n + 1, .leaf⟩)
      (newLeaf (ctx.keyOfs + m + 1) ctx.key ctx.val) := by
    rw [newLeaf, denotes_leaf]
    refine ⟨Nat.lt_succ_self t, rfl, ⟨ctx.sno, ?_⟩, ?_⟩
    · rw [hleaf, forkedHeap_leaf]
      rfl
    · rw [hleaf, forkedHeap_leaf]
      rfl
  rw [nodeForkTree, denotes_node]
  refine ⟨Nat.lt_succ_self t, by simp [forkHead, newNode], ⟨ctx.sno, ?_⟩, _, ?_,
    related_pairUp hcopy hnew _ _⟩
  · rw [hpar, forkedHeap_par]
    rfl
  · rw [hpar, forkedHeap_par]
    rfl

theorem fork_finishes {s₁ : Nat} {old : Head → Tree} (hpast : ctx.tPast = some p)
    (hagree : ∀ x, Ptr.Fresh t s n x → ∀ f, h₁ (x, f) = forkedHeap h t s n ctx hd m cs (x, f))
    (hcopych : (copych ⟨t, s, n, hd.type⟩ p).wp t s₁ 0 h₁ (fun _ _ h₂ =>
      Denotes (Ptr.Before (t + 1)) h₂ (some ⟨t, s, n, hd.type⟩) (old (shortenCow hd m)) ∧
        ∀ x, x ≠ ⟨t, s, n, hd.type⟩ → ∀ f, h₂ (x, f) = h₁ (x, f))) (root : Option NodePtr) :
    Finishes next t s₁ { ctx with
        keyOfs := ctx.keyOfs + m
        chIdx :=
          if partialKey ctx.key (ctx.keyOfs + m) < partialKey hd.pfx (hd.pfxOfs + m) then 1 else 0
        op := .fork, root := root, tCur := some ⟨t, s, n + 1 + 1, .node4⟩ } h₁ (Ptr.Fresh t s n)
      ⟨t, s, n + 1 + 1, .node4⟩ (nodeForkTree hd old ctx.keyOfs m ctx.key ctx.val) := by
  have hchs : h₁ (⟨t, s, n + 1 + 1, .node4⟩, Field.chs) = some _ :=
    (hagree _ (by simp; omega) _).trans (forkedHeap_par _)
  apply Handlers.Ends.step rfl
  simp only [interface, handleFork, Prog.wp_bind, Prog.wp_check, Prog.wp_load, Option.some.injEq,
    exists_eq_left', hchs, pairUp_getD, hpast, Prog.wp_pure]
  apply Prog.wp_mono hcopych
  rintro ⟨⟩ n' h₂ ⟨hcopy, hframe⟩
  have hplaced : ∀ (i : Nat) (site : NodeType), n < i → ∀ f, h₂ (⟨t, s, i, site⟩, f) =
      forkedHeap h t s n ctx hd m cs (⟨t, s, i, site⟩, f) := fun i site hi f => by
    rw [hframe _ (serial_ne (by omega)), hagree _ (by simp; omega)]
  refine Handlers.Ends.done rfl ⟨rfl, fork_denotes hcopy (hplaced _ _ (by omega))
    (hplaced _ _ (by omega)), fun x hx f => ?_⟩
  apply hframe
  rintro rfl
  exact hx (by simp)

end Fork

theorem enters_leaf (old : Nat) : Enters next t ofs (.leaf hd old) := by
  rintro s n h ctx ⟨p, hp, hs, htype, ⟨v, hhead⟩, hval⟩ rfl
  simp only [updateCow, hp, Prog.wp_bind, Prog.wp_load, hhead, Option.some.injEq, exists_eq_left']
  have hcopy : ∀ Q : NodePtr → Nat → NodeHeap → Prop, _ → (nodeCopy p ctx.sno).wp t s n h Q :=
    fun Q => nodeCopy_leaf Q hhead htype hval
  rw [cowUpdate]
  by_cases hmis : prefixMatch hd ctx.key < hd.pfxLen
  · simp only [if_pos hmis, Prog.wp_bind, Prog.wp_pure]
    apply Prog.wp_mono (nodeForkCow_spec hs hhead rfl hcopy)
    rintro _ n' h' ⟨rfl, rfl, rfl⟩
    refine ⟨by simp; omega, rfl, fun x hx f => forkedHeap_frame hx f,
      fun {s₁ h₁} hlt hagree root => ?_⟩
    refine fork_finishes hp (fun x hx => hagree x (.inl hx)) ?_ root
    have hcur : ∀ f, h₁ (⟨t, s, n, hd.type⟩, f) = _ := fun f =>
      (hagree _ (.inl (by simp)) f).trans (forkedHeap_old f)
    refine copych_leaf ((hcur _).trans (Heap.set_self _ _ _ _)) htype ⟨?_, fun _ _ _ => rfl⟩
    rw [denotes_leaf]
    refine ⟨Nat.lt_succ_self t, htype, ⟨ctx.sno, ?_⟩, ?_⟩
    · rw [hcur, Heap.set_self]
    · rw [hcur, Heap.set_of_field_ne _ _ (by simp), Heap.place_self]
      rfl
  · simp only [if_neg hmis, if_pos htype, leafUpdate, Prog.wp_bind, Prog.wp_pure, Prog.wp_store]
    apply hcopy
    have hnew : Ptr.Fresh t s n (⟨t, s, n, hd.type⟩ : NodePtr) := by simp
    refine ⟨by simp [leafCells], by simp, trivial, fun x hx f => ?_,
      fun {s₁ h₁} hlt hagree root => ?_⟩
    · rw [Heap.set_of_ptr_ne _ _ (hnew.ne hx), Heap.place_of_ne _ _ _ (hnew.ne hx)]
    · refine Handlers.Ends.done rfl ⟨rfl, ?_, fun _ _ _ => rfl⟩
      rw [denotes_leaf]
      refine ⟨Nat.lt_succ_self t, htype, ⟨ctx.sno, ?_⟩, ?_⟩
      · rw [hagree _ (.inl hnew), Heap.set_of_field_ne _ _ (by simp), Heap.place_self]
        rfl
      · rw [hagree _ (.inl hnew), Heap.set_self]

theorem nodeExtend_inner (htype : hd.type ≠ .leaf) : (nodeExtend hd).type ≠ .leaf := by
  cases hn : hd.type <;> simp_all [nodeExtend, newNode]

section Node

variable {chs : List Tree} {ps : List (Option NodePtr)} {s₁ idx : Nat} {h₁ : NodeHeap}

theorem search_finishes {v w : Nat} {T' : Tree} (hlt : ∀ s c, s < next s c)
    (hs : s < s₁) (hcur : ctx.tCur = some tp) (hpast : ctx.tPast = some p) (hop : ctx.op = .search)
    (htp : tp.Between t s n m) (hp : p.Before t) (htype : hd.type ≠ .leaf)
    (hnew : h₁ (tp, Field.head) = some (v, hd)) (hnil : h₁ (tp, Field.chs) = some [])
    (hhead : h₁ (p, Field.head) = some (w, hd)) (hchs : h₁ (p, Field.chs) = some ps)
    (hps : List.Forall₂ (Denotes (Ptr.Before t) h₁) ps chs)
    (hchild : Enters next t ctx.keyOfs (getch hd chs ctx.chIdx))
    (hT' : T' = cowUpdate ctx.key ctx.val (getch hd chs ctx.chIdx) ctx.keyOfs) :
    Finishes next t s₁ ctx h₁ (Ptr.Fresh t s n) tp (.node hd (setch hd chs ctx.chIdx T')) := by
  have hpt : p ≠ tp := fun heq => hp.not_fresh s n (heq ▸ htp.fresh)
  have htps : ∀ i, ¬ tp.Fresh t s₁ i := by
    rintro i ⟨-, hf⟩
    have := htp.2.1
    omega
  have hhandle : interface.handle ctx = handleSearch ctx := by simp only [interface, hop]
  apply Handlers.Ends.step (by simp [interface, hop])
  rw [hhandle, handleSearch]
  simp only [Prog.wp_bind, Prog.wp_check]
  refine ⟨tp, hcur, p, hpast, copych_inner hnew htype hchs (by simp [hnil]) ?_⟩
  have hframe : ∀ x, x ≠ tp → ∀ f, h₁.set tp Field.chs ps (x, f) = h₁ (x, f) := fun x hx f =>
    Heap.set_of_ptr_ne _ _ hx
  simp only [Prog.wp_load]
  refine ⟨_, (hframe p hpt _).trans hhead, _, (hframe p hpt _).trans hchs, ?_⟩
  have hold : ∀ x : NodePtr, x.Before t → x ≠ tp := fun x hx heq =>
    hx.not_fresh s n (heq ▸ htp.fresh)
  have hps' : List.Forall₂ (Denotes (Ptr.Before t) (h₁.set tp Field.chs ps)) ps chs :=
    hps.imp fun _ _ hr => hr.frame fun x hx => ⟨hx, hframe x (hold x hx)⟩
  apply Prog.wp_mono (hchild { ctx with tPast := getch hd ps ctx.chIdx }
    (related_getch hps' denotes_null hd ctx.chIdx) rfl)
  rintro ⟨q, next'⟩ n' h₂ ⟨hq, hroot, hframe₂, hfin⟩
  have hqt : q ≠ tp := fun heq => htps 0 (heq ▸ hq.fresh)
  have htp₂ : ∀ f, h₂ (tp, f) = h₁.set tp Field.chs ps (tp, f) := hframe₂ tp (htps 0)
  simp only [storeCh, Prog.wp_bind, Prog.wp_load, Prog.wp_store, Prog.wp_pure, htp₂, Heap.set_self,
    Heap.set_of_field_ne _ _ (show Field.head ≠ Field.chs by simp), hnew, Option.some.injEq,
    exists_eq_left', Option.isSome_some, true_and]
  have hne : ∀ x : NodePtr, x.Fresh t s₁ 0 ∨ x.Before t → x ≠ tp := by
    rintro x (hx | hx)
    · exact fun heq => htps 0 (heq ▸ hx)
    · exact hold x hx
  apply (hfin (hlt s₁ _) (fun x hx f => Heap.set_of_ptr_ne _ _ (hne x hx)) next'.root).mono
  rintro ctx' h₃ ⟨hroot', hdenotes, hframe₃⟩
  have hfresh : ∀ x : NodePtr, ¬ x.Fresh t s n → ¬ x.Fresh t s₁ 0 := fun x hx hf =>
    hx (hf.mono (.inl hs))
  refine ⟨hroot'.trans hroot, ?_, fun x hx f => ?_⟩
  · have hhead₃ : h₃ (tp, Field.head) = some (v, hd) := by
      rw [hframe₃ tp (htps 0), Heap.set_of_field_ne _ _ (by simp), htp₂,
        Heap.set_of_field_ne _ _ (by simp), hnew]
    have hchs₃ : h₃ (tp, Field.chs) = some (setch hd ps ctx.chIdx (some q)) := by
      rw [hframe₃ tp (htps 0), Heap.set_self]
    have hps₃ : List.Forall₂ (Denotes (Ptr.Before (t + 1)) h₃) ps chs :=
      hps.imp fun _ _ hr => hr.frame fun x hx => ⟨hx.succ, fun f => by
        rw [hframe₃ x (hx.not_fresh _ _), Heap.set_of_ptr_ne _ _ (hold x hx),
          hframe₂ x (hx.not_fresh _ _), hframe x (hold x hx)]⟩
    rw [denotes_node]
    exact ⟨htp.fresh.before, htype, ⟨v, hhead₃⟩, _, hchs₃,
      related_setch hps₃ denotes_null (hT' ▸ hdenotes) hd ctx.chIdx⟩
  · have hxt : x ≠ tp := htp.fresh.ne hx
    rw [hframe₃ x (hfresh x hx), Heap.set_of_ptr_ne _ _ hxt, hframe₂ x (hfresh x hx), hframe x hxt]

theorem insert_finishes {new : Head} {v w : Nat} (hop : ctx.op = .insert)
    (hcur : ctx.tCur = some tp) (hpast : ctx.tPast = some p) (htp : tp.Between t s n m)
    (hs : s < s₁) (htype : new.type ≠ .leaf)
    (hnew : h₁ (tp, Field.head) = some (v, new)) (hnil : h₁ (tp, Field.chs) = some [])
    (hhead : h₁ (p, Field.head) = some (w, hd)) (hchs : h₁ (p, Field.chs) = some ps)
    (hps : List.Forall₂ (Denotes (Ptr.Before t) h₁) ps chs) :
    Finishes next t s₁ ctx h₁ (Ptr.Fresh t s n) tp (.node new
      (setch new (copychAt new hd chs ctx.chIdx) ctx.chIdx
      (newLeaf ctx.keyOfs ctx.key ctx.val))) := by
  have hhandle : interface.handle ctx = handleInsert ctx := by simp only [interface, hop]
  have htpl : tp ≠ ⟨t, s₁, 0, .leaf⟩ := by
    rintro rfl
    simp only [Ptr.between_mk] at htp
    omega
  apply Handlers.Ends.step (by simp [interface, hop])
  rw [hhandle, handleInsert]
  simp only [Prog.wp_bind, Prog.wp_check, Prog.wp_load, Prog.wp_store]
  refine ⟨tp, hcur, p, hpast, _, hnew, _, hhead, _, hchs, by simp [hnil], ?_⟩
  generalize hleaf : (⟨t, s₁, 0, .leaf⟩ : NodePtr) = lf at htpl
  have hlf : lf.Fresh t s₁ 0 := by
    subst hleaf
    simp
  simp only [allocLeaf, storeCh, Prog.wp_new, Prog.wp_bind, Prog.wp_load, Prog.wp_store,
    Prog.wp_pure,
    hleaf, Heap.place_of_ne _ _ _ htpl, Heap.set_self,
    Heap.set_of_field_ne _ _ (show Field.head ≠ Field.chs by simp), hnew, Option.some.injEq,
    exists_eq_left', Option.isSome_some, true_and]
  generalize hh₂ : ((h₁.set tp Field.chs (copychAt new hd ps ctx.chIdx)).place lf
    (leafCells ctx.sno
      (newNode .leaf ctx.keyOfs (8 - ctx.keyOfs) ctx.key) ctx.val)).set tp Field.chs
      (setch new (copychAt new hd ps ctx.chIdx) ctx.chIdx (some lf)) = h₂
  have hframe : ∀ x, x ≠ tp → x ≠ lf → ∀ f, h₂ (x, f) = h₁ (x, f) := fun x hxt hxl f => by
    rw [← hh₂, Heap.set_of_ptr_ne _ _ hxt, Heap.place_of_ne _ _ _ hxl, Heap.set_of_ptr_ne _ _ hxt]
  refine Handlers.Ends.done rfl ⟨rfl, ?_, fun x hx f => hframe x (htp.fresh.ne hx)
    ((hlf.mono (.inl hs)).ne hx) f⟩
  have hps₂ : List.Forall₂ (Denotes (Ptr.Before (t + 1)) h₂) ps chs :=
    hps.imp fun _ _ hr => hr.frame fun x hx => ⟨hx.succ, hframe x
      (fun heq => hx.not_fresh s n (heq ▸ htp.fresh)) (fun heq => hx.not_fresh s₁ 0 (heq ▸ hlf))⟩
  have hnewLeaf : Denotes (Ptr.Before (t + 1)) h₂ (some lf)
      (newLeaf ctx.keyOfs ctx.key ctx.val) := by
    rw [newLeaf, denotes_leaf]
    refine ⟨hlf.before, rfl, ⟨ctx.sno, ?_⟩, ?_⟩
    · rw [← hh₂, Heap.set_of_ptr_ne _ _ htpl.symm, Heap.place_self]
      rfl
    · rw [← hh₂, Heap.set_of_ptr_ne _ _ htpl.symm, Heap.place_self]
      rfl
  rw [denotes_node]
  refine ⟨htp.fresh.before, htype, ⟨v, ?_⟩, _, hh₂ ▸ Heap.set_self _ _ _ _,
    related_setch (related_copychAt hps₂ denotes_null _ _ _) denotes_null hnewLeaf _ _⟩
  rw [← hh₂, Heap.set_of_field_ne _ _ (by simp), Heap.place_of_ne _ _ _ htpl,
    Heap.set_of_field_ne _ _ (by simp), hnew]

end Node

theorem enters_node {chs : List Tree} (hlt : ∀ s c, s < next s c)
    (hchild : ∀ i ofs, Enters next t ofs (chs.getD i .null)) :
    Enters next t ofs (.node hd chs) := by
  rintro s n h ctx ⟨p, hp, hs, htype, ⟨v, hhead⟩, ps, hchs, hps⟩ rfl
  rw [denotesList_iff] at hps
  rw [cowUpdate_node]
  simp only [updateCow, hp, Prog.wp_bind, Prog.wp_load, hhead, Option.some.injEq, exists_eq_left']
  have hcopy : ∀ Q : NodePtr → Nat → NodeHeap → Prop, _ → (nodeCopy p ctx.sno).wp t s n h Q :=
    fun Q => nodeCopy_inner Q hhead htype
  have hold : ∀ x : NodePtr, x.Before t → ∀ q : NodePtr, q.Fresh t s n → x ≠ q :=
    fun x hx q hq heq => hx.not_fresh s n (heq ▸ hq)
  by_cases hmis : prefixMatch hd ctx.key < hd.pfxLen
  · simp only [if_pos hmis, Prog.wp_bind, Prog.wp_pure]
    apply Prog.wp_mono (nodeForkCow_spec hs hhead rfl hcopy)
    rintro _ n' h' ⟨rfl, rfl, rfl⟩
    refine ⟨by simp; omega, rfl, fun x hx f => forkedHeap_frame hx f,
      fun {s₁ h₁} hss hagree root => ?_⟩
    refine fork_finishes hp (fun x hx => hagree x (.inl hx)) ?_ root
    have hcur : ∀ f, h₁ (⟨t, s, n, hd.type⟩, f) = _ := fun f =>
      (hagree _ (.inl (by simp)) f).trans (forkedHeap_old f)
    have hbefore : ∀ x, Ptr.Before t x → ∀ f, h₁ (x, f) = h (x, f) := fun x hx f =>
      (hagree x (.inr hx) f).trans (forkedHeap_frame (hx.not_fresh s n) f)
    have hnil : h₁ (⟨t, s, n, hd.type⟩, Field.chs) = some [] := by
      rw [hcur, Heap.set_of_field_ne _ _ (by simp), Heap.place_self]
      rfl
    refine copych_inner ((hcur _).trans (Heap.set_self _ _ _ _)) htype ((hbefore p hs _).trans hchs)
      (by simp [hnil]) ⟨?_, fun x hx f => Heap.set_of_ptr_ne _ _ hx⟩
    rw [denotes_node]
    refine ⟨Nat.lt_succ_self t, htype, ⟨ctx.sno, ?_⟩, ps, Heap.set_self _ _ _ _,
      hps.imp fun _ _ hr => hr.frame fun x hx => ⟨hx.succ, fun f => ?_⟩⟩
    · rw [Heap.set_of_field_ne _ _ (by simp), hcur, Heap.set_self]
    · rw [Heap.set_of_ptr_ne _ _ (hold x hx _ (by simp)), hbefore x hx]
  · simp only [if_neg hmis, if_neg htype]
    cases hi : findIdx hd (partialKey ctx.key (ctx.keyOfs + hd.pfxLen)) with
    | some idx =>
        simp only [Prog.wp_bind, Prog.wp_pure]
        apply hcopy
        have hnew : Ptr.Fresh t s n (⟨t, s, n, hd.type⟩ : NodePtr) := by simp
        refine ⟨by simp, trivial, place_frame hnew, fun {s₁ h₁} hss hagree root => ?_⟩
        have hbefore : ∀ x, Ptr.Before t x → ∀ f, h₁ (x, f) = h (x, f) := fun x hx f =>
          (hagree x (.inr hx) f).trans (place_frame hnew x (hx.not_fresh s n) f)
        have hcur : ∀ f, h₁ (⟨t, s, n, hd.type⟩, f) = innerCells ctx.sno hd [] f := fun f => by
          rw [hagree _ (.inl hnew), Heap.place_self]
        have hbetween : Ptr.Between t s n (n + 1) (⟨t, s, n, hd.type⟩ : NodePtr) := by simp
        exact search_finishes hlt hss rfl rfl rfl hbetween hs htype (hcur _) (hcur _)
          ((hbefore p hs _).trans hhead) ((hbefore p hs _).trans hchs)
          (hps.imp fun _ _ hr => hr.frame fun x hx => ⟨hx, hbefore x hx⟩) (hchild _ _) rfl
    | none =>
        simp only [Prog.wp_bind, Prog.wp_pure, Prog.wp_new]
        have hinner : (append (if isFull hd then nodeExtend hd else hd)
            (partialKey ctx.key (ctx.keyOfs + hd.pfxLen))).2.type ≠ .leaf := by
          rw [append_type]
          split
          · exact nodeExtend_inner htype
          · exact htype
        generalize append (if isFull hd then nodeExtend hd else hd)
          (partialKey ctx.key (ctx.keyOfs + hd.pfxLen)) = new at hinner
        have hnew : Ptr.Between t s n (n + 1) (⟨t, s, n, new.2.type⟩ : NodePtr) := by simp
        refine ⟨by simp, trivial, place_frame hnew.fresh, fun {s₁ h₁} hss hagree root => ?_⟩
        have hbefore : ∀ x, Ptr.Before t x → ∀ f, h₁ (x, f) = h (x, f) := fun x hx f =>
          (hagree x (.inr hx) f).trans (place_frame hnew.fresh x (hx.not_fresh s n) f)
        have hcur : ∀ f, h₁ (⟨t, s, n, new.2.type⟩, f) = innerCells ctx.sno new.2 [] f :=
          fun f => by rw [hagree _ (.inl hnew.fresh), Heap.place_self]
        exact insert_finishes rfl rfl rfl hnew hss hinner (hcur _) (hcur _)
          ((hbefore p hs _).trans hhead) ((hbefore p hs _).trans hchs)
          (hps.imp fun _ _ hr => hr.frame fun x hx => ⟨hx, hbefore x hx⟩)

mutual

/-- The handlers compute `cowUpdate` from any tree. -/
theorem enters (hlt : ∀ s c, s < next s c) (T : Tree) (ofs : Nat) : Enters next t ofs T := by
  match T with
  | .null => exact enters_null
  | .leaf hd old => exact enters_leaf old
  | .node hd chs => exact enters_node hlt fun i ofs => entersAt hlt chs i ofs

theorem entersAt (hlt : ∀ s c, s < next s c) (Ts : List Tree) (i ofs : Nat) :
    Enters next t ofs (Ts.getD i .null) := by
  match Ts, i with
  | [], _ => exact enters_null
  | T :: _, 0 => exact enters hlt T ofs
  | _ :: Ts, i + 1 => exact entersAt hlt Ts i ofs

end

end Run

section Runs

variable {t : Nat} {h : NodeHeap} {r : Option NodePtr} {T : Tree} {us : List (Nat × Nat)}

def cowAll (us : List (Nat × Nat)) (T : Tree) : Tree :=
  us.foldl (fun T u => cowUpdate u.1 u.2 T 0) T

/-- One update from `handle_init` until DONE. -/
theorem update_ends (key val : Nat) (hr : Denotes (Ptr.Before t) h r T) :
    interface.Ends next t 0 (interface.start t key val r) h (fun ctx h' =>
      Denotes (Ptr.Before (t + 1)) h' ctx.root (cowUpdate key val T 0)) := by
  apply Handlers.Ends.step rfl
  have hhandle : interface.handle (interface.start t key val r) =
    handleInit (interface.start t key val r) := rfl
  rw [hhandle, handleInit]
  simp only [Prog.wp_bind]
  apply Prog.wp_mono (enters (fun s _ => Nat.lt_succ_self s) T 0
    { interface.start t key val r with keyOfs := 0 } hr rfl)
  rintro ⟨tp, ctx⟩ n' h' ⟨-, -, -, hfin⟩
  rw [Prog.wp_pure]
  apply (hfin (Nat.lt_succ_self 0) (fun _ _ _ => rfl) (some tp)).mono
  rintro ctx' h'' ⟨hroot, hdenotes, -⟩
  rw [hroot]
  exact hdenotes

def HoldsTree (P : Tree → Prop) (root : Option NodePtr) (h : NodeHeap) : Prop :=
  ∃ t T, Denotes (Ptr.Before t) h root T ∧ P T

/-- A sequence of updates in memory computes `cowAll`. -/
theorem endsAll_iff {P : Tree → Prop} (hr : Denotes (Ptr.Before t) h r T) :
    interface.EndsAll next (HoldsTree P) t r h us ↔ P (cowAll us T) := by
  induction us generalizing t h r T with
  | nil =>
      simp only [Interface.EndsAll, cowAll, List.foldl_nil]
      constructor
      · rintro ⟨t', T', hden, hP⟩
        exact hr.unique hden ▸ hP
      · exact fun hP => ⟨t, T, hr, hP⟩
  | cons u us ih =>
      obtain ⟨key, val⟩ := u
      have hends := update_ends key val hr
      constructor
      · intro hall
        obtain ⟨fuel, res, -, hden, hrest⟩ := hends.and hall
        exact (ih hden).mp hrest
      · intro hP
        apply hends.mono
        intro ctx h' hden
        exact (ih hden).mpr hP

end Runs

end Contrees.Trees.Art
