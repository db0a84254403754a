import Contrees.Trees.AertHalves

namespace Contrees.Trees.Aert.Cow

open Library Library.Memory Library.Slots Conctrl

section Trees

mutual

/-- Whether the update splits a NODE16 whose pointer is tagged; `below` says
whether the pointer to the node is. -/
def splitsTagged (key : Nat) : Tree → Nat → Bool → Bool
  | .null, _, _ => false
  | .leaf _ _, _, _ => false
  | .tagged lo t, ofs, _ =>
      if ptrPfxMatch lo t.pfxOfs key < 4 then false else splitsTagged key t (ofs + 4) true
  | .node hd chs, ofs, below =>
      if pmlen hd key < hd.pfxLen then false
      else
        match findidx hd (partialKey key (ofs + hd.pfxLen) (nodeKeyLen hd.type)) with
        | some idx => splitsTaggedAt key chs idx (ofs + hd.pfxLen + nodeKeyLen hd.type)
        | none => below && decide (hd.size = 16)

def splitsTaggedAt (key : Nat) : List Tree → Nat → Nat → Bool
  | [], _, _ => false
  | t :: _, 0, ofs => splitsTagged key t ofs false
  | _ :: ts, i + 1, ofs => splitsTaggedAt key ts i ofs

end

theorem splitsTaggedAt_eq (key : Nat) (chs : List Tree) (i ofs : Nat) :
    splitsTaggedAt key chs i ofs = splitsTagged key (getch chs i) ofs false := by
  induction chs generalizing i with
  | nil =>
      rw [splitsTaggedAt, getch, List.getD_nil]
      rfl
  | cons c chs ih =>
      cases i with
      | zero => rfl
      | succ i => exact ih i

def cowUpdate (key val : Nat) (T : Tree) (ofs : Nat) (below : Bool) : Option Tree :=
  if splitsTagged key T ofs below then none else some (updateInplace key val T ofs)

theorem splitsTagged_node (key ofs : Nat) (hd : Head) (chs : List Tree) (below : Bool) :
    splitsTagged key (.node hd chs) ofs below =
      if pmlen hd key < hd.pfxLen then false
      else
        match findidx hd (partialKey key (ofs + hd.pfxLen) (nodeKeyLen hd.type)) with
        | some idx => splitsTagged key (getch chs idx) (ofs + hd.pfxLen + nodeKeyLen hd.type) false
        | none => below && decide (hd.size = 16) := by
  simp only [splitsTagged, splitsTaggedAt_eq]

theorem cowUpdate_of_not {key val ofs : Nat} {T : Tree} {below : Bool}
    (h : splitsTagged key T ofs below = false) :
    cowUpdate key val T ofs below = some (updateInplace key val T ofs) := by simp [cowUpdate, h]

theorem cowUpdate_of_splits {key val ofs : Nat} {T : Tree} {below : Bool}
    (h : splitsTagged key T ofs below = true) :
    cowUpdate key val T ofs below = none := by simp [cowUpdate, h]

variable {key val ofs idx : Nat} {hd : Head} {chs : List Tree} {below : Bool}

theorem cowUpdate_child (hmis : ¬ pmlen hd key < hd.pfxLen)
    (hi : findidx hd (partialKey key (ofs + hd.pfxLen) (nodeKeyLen hd.type)) = some idx) :
    cowUpdate key val (.node hd chs) ofs below =
      (cowUpdate key val (getch chs idx) (ofs + hd.pfxLen + nodeKeyLen hd.type) false).map
        (fun T' => .node hd (setch chs idx T')) := by
  rw [cowUpdate, cowUpdate, splitsTagged_node, if_neg hmis, updateInplace_node, if_neg hmis]
  simp only [hi]
  cases splitsTagged key (getch chs idx) (ofs + hd.pfxLen + nodeKeyLen hd.type) false <;> rfl

def extended (hd : Head) (pkey : Nat) : Nat × Head :=
  if isFull hd then extendAppend hd pkey else Aert.append hd pkey

theorem insertch_append (hc : Compact hd) (h : hd.Laid chs.length) (d : Nat) (x : Tree) :
    Aert.insertch (Aert.append hd d).2 chs (Aert.append hd d).1 x =
      setch (copychAt (Aert.append hd d).2 hd chs (Aert.append hd d).1) (Aert.append hd d).1 x := by
  have hs := hc.sorted h
  have hle : findgt hd d ≤ chs.length :=
    (hs.keys_length.trans hs.chs_length.symm) ▸ SearchTree.findch_le _ _
  rw [hc.append]
  rcases hc with hn | hn | hn <;> simp only [Aert.insertch, copychAt, grow_type, hn, if_true]
  exacts [(put_insertIdx hle).symm, (put_insertIdx hle).symm, (put_insertIdx hle).symm]

theorem cowUpdate_gap (h : hd.Laid chs.length) (hmis : ¬ pmlen hd key < hd.pfxLen)
    (hsize : hd.size ≠ 16)
    (hi : findidx hd (partialKey key (ofs + hd.pfxLen) (nodeKeyLen hd.type)) = none) :
    cowUpdate key val (.node hd chs) ofs below =
      some (.node (extended hd (partialKey key (ofs + hd.pfxLen) (nodeKeyLen hd.type))).2
        (setch (copychAt
        (extended hd (partialKey key (ofs + hd.pfxLen) (nodeKeyLen hd.type))).2 hd chs
            (extended hd (partialKey key (ofs + hd.pfxLen) (nodeKeyLen hd.type))).1)
          (extended hd (partialKey key (ofs + hd.pfxLen) (nodeKeyLen hd.type))).1
          (newLeaf (ofs + hd.pfxLen + nodeKeyLen hd.type) key val))) := by
  have hnot : splitsTagged key (.node hd chs) ofs below = false := by
    rw [splitsTagged_node, if_neg hmis]
    simp only [hi, hsize, decide_false, Bool.and_false]
  rw [cowUpdate_of_not hnot, updateInplace_node, if_neg hmis]
  simp only [hi, if_neg hsize, extended]
  split
  · rfl
  · rw [insertch_append ?_ h]
    refine h.cases.resolve_right fun hn => ?_
    simp [findidx, hn] at hi

theorem cowUpdate_split (hmis : ¬ pmlen hd key < hd.pfxLen) (hsize : hd.size = 16)
    (hi : findidx hd (partialKey key (ofs + hd.pfxLen) (nodeKeyLen hd.type)) = none) :
    cowUpdate key val (.node hd chs) ofs below =
      if below then none
      else some (nodeSplitInplace hd chs (partialKey key (ofs + hd.pfxLen) (nodeKeyLen hd.type))
        (ofs + hd.pfxLen + nodeKeyLen hd.type) key val) := by
  rw [cowUpdate, splitsTagged_node, if_neg hmis, updateInplace_node, if_neg hmis]
  simp only [hi, hsize, decide_true, Bool.and_true, if_true]

theorem cowUpdate_tagged {lo : Nat} {T : Tree} (hmatch : ¬ ptrPfxMatch lo T.pfxOfs key < 4) :
    cowUpdate key val (.tagged lo T) ofs below =
      (cowUpdate key val T (ofs + 4) true).map (.tagged lo) := by
  rw [cowUpdate, cowUpdate, splitsTagged, if_neg hmatch, updateInplace, if_neg hmatch]
  cases splitsTagged key T (ofs + 4) true <;> rfl

theorem node16_of_full {m : Nat} (h : hd.Laid m) (hsize : hd.size = 16) : hd.type = .node16 := by
  cases hn : hd.type <;> simp only [Head.Laid, hn] at h
  all_goals first | rfl | omega

theorem extended_inner (hd : Head) (d : Nat) (h : hd.type ≠ .leaf) :
    (extended hd d).2.type ≠ .leaf := by
  rw [extended]
  split
  · cases hn : hd.type <;> simp_all [extendAppend, newNode]
  · rwa [append_type]

end Trees

section Lists

variable {ρ σ : Type} [Inhabited ρ] [Inhabited σ] {R : ρ → σ → Prop} {xs : List ρ} {ys : List σ}

theorem related_copychAt (h : List.Forall₂ R xs ys) (h₀ : R default default) (new old : Head)
    (idx : Nat) :
    List.Forall₂ R (copychAt new old xs idx) (copychAt new old ys idx) := by
  have hins := related_insertIdx h h₀ idx
  unfold copychAt
  cases old.type with
  | node4 => exact hins
  | node16 => exact hins
  | nodeh4 =>
      by_cases hn : new.type = .nodeh4
      · simpa only [if_pos hn] using hins
      · simpa only [if_neg hn] using related_spread h h₀ 16 old.keys
  | nodeh16 => exact h
  | leaf => exact .nil

end Lists

section Nodes

variable {S : Address → Prop} {h h₁ : NodeHeap} {t s n : Nat} {p q : Address} {hd : Head}

theorem placed_leaf (p : Address) (ver pfxOfs pfxLen key val : Nat) :
    Denotes (· = p) (h.place p (leafCells ver (newNode .leaf pfxOfs pfxLen key) val))
    (some (plain p))
      (.leaf (newNode .leaf pfxOfs pfxLen key) val) := by
  rw [denotes_leaf]
  refine ⟨rfl, rfl, ⟨ver, ?_⟩, ?_⟩
  · rw [Heap.place_self]
    rfl
  · rw [Heap.place_self]
    rfl

theorem allocLeaf_spec (ver ofs key val : Nat) :
    (allocLeaf ver ofs key val).wp t s n h (fun r n' h' => r.addr = ⟨t, s, n, .leaf⟩ ∧ n' = n + 1 ∧
      (∀ x, x ≠ ⟨t, s, n, .leaf⟩ → ∀ f, h' (x, f) = h (x, f)) ∧
        Denotes (· = ⟨t, s, n, .leaf⟩) h' (some r) (newLeaf ofs key val)) := by
  rw [allocLeaf, newLeaf]
  by_cases hhalf : ofs % 8 = 4
  · simp only [if_pos hhalf, Prog.wp_bind, Prog.wp_new, Prog.wp_pure]
    refine ⟨rfl, trivial, fun x hx f => Heap.place_of_ne _ _ _ hx,
      denotes_tagged.mpr ⟨?_, placed_leaf _ _ _ _ _ _⟩⟩
    simp [plain]
  · simp only [if_neg hhalf, Prog.wp_bind, Prog.wp_new, Prog.wp_pure]
    exact ⟨rfl, trivial, fun x hx f => Heap.place_of_ne _ _ _ hx, placed_leaf _ _ _ _ _ _⟩

theorem allocHalfLeaf_spec (ver key val : Nat) {ofs : Nat} (hhalf : ofs % 8 = 4) :
    (allocLeaf ver (ofs + 4) key val).wp t s n h (fun r _ h' =>
      (∀ x, x ≠ ⟨t, s, n, .leaf⟩ → ∀ f, h' (x, f) = h (x, f)) ∧
        Denotes (· = ⟨t, s, n, .leaf⟩) h' (some (embedPtr r (partialKey key ofs 4)))
        (newLeaf ofs key val)) := by
  have hplain : ¬ (ofs + 4) % 8 = 4 := by omega
  have hrest : 64 - 4 - ofs = 64 - (ofs + 4) := by omega
  simp only [allocLeaf, if_neg hplain, Prog.wp_bind, Prog.wp_new, Prog.wp_pure]
  rw [newLeaf, if_pos hhalf, hrest]
  refine ⟨fun x hx f => Heap.place_of_ne _ _ _ hx, denotes_tagged.mpr ⟨?_, placed_leaf _ _ _ _ _ _⟩⟩
  simp [plain]

theorem nodeCopy_leaf {ver v val : Nat} (Q : Address → Nat → NodeHeap → Prop)
    (hhead : h (p, Field.head) = some (v, hd)) (htype : hd.type = .leaf)
    (hval : h (p, Field.val) = some val)
    (hQ : Q ⟨t, s, n, hd.type⟩ (n + 1) (h.place ⟨t, s, n, hd.type⟩ (leafCells ver hd val))) :
    (nodeCopy p ver).wp t s n h Q := by
  rw [htype] at hQ
  simpa only [nodeCopy, Prog.wp_bind, Prog.wp_load, hhead, Option.some.injEq, exists_eq_left',
    htype, if_true, hval,
    Prog.wp_new] using hQ

theorem nodeCopy_inner {ver v : Nat} (Q : Address → Nat → NodeHeap → Prop)
    (hhead : h (p, Field.head) = some (v, hd)) (htype : hd.type ≠ .leaf)
    (hQ : Q ⟨t, s, n, hd.type⟩ (n + 1) (h.place ⟨t, s, n, hd.type⟩ (innerCells ver hd []))) :
    (nodeCopy p ver).wp t s n h Q := by
  simpa only [nodeCopy, Prog.wp_bind, Prog.wp_load, hhead, Option.some.injEq, exists_eq_left',
    htype, if_false,
    Prog.wp_new] using hQ

theorem copych_leaf {new : Head} {v w : Nat} {Q : Unit → Nat → NodeHeap → Prop}
    (hnew : h (q, Field.head) = some (v, new)) (hold : h (p, Field.head) = some (w, hd))
    (htype : hd.type = .leaf) (hQ : Q () n h) : (copych q p).wp t s n h Q := by
  simpa only [copych, Prog.wp_bind, Prog.wp_load, hnew, hold, Option.some.injEq, exists_eq_left',
    htype, if_true,
    Prog.wp_pure] using hQ

theorem copych_inner {new : Head} {v w : Nat} {ps : List (Option NodePtr)}
    {Q : Unit → Nat → NodeHeap → Prop}
    (hnew : h (q, Field.head) = some (v, new)) (hold : h (p, Field.head) = some (w, hd))
    (htype : hd.type ≠ .leaf) (hsame : new.type = hd.type) (hchs : h (p, Field.chs) = some ps)
    (hsome : (h (q, Field.chs)).isSome)
    (hQ : Q () n (h.set q Field.chs ps)) : (copych q p).wp t s n h Q := by
  have hspread : ¬ (hd.type = .nodeh4 ∧ hd.type ≠ .nodeh4) := fun heq => heq.2 heq.1
  simpa only [copych, Prog.wp_bind, Prog.wp_load, hnew, hold, Option.some.injEq, exists_eq_left',
    htype, if_false,
    hchs, hsame, hspread, Prog.wp_store, hsome, true_and] using hQ

end Nodes

section Run

variable {next : Nat → Context → Nat} {t s s₁ n m ofs : Nat} {h h' h₁ : NodeHeap} {ctx : Context}
  {p tp : Address} {tag : Option Nat} {r : NodePtr} {hd : Head} {T : Tree} {F : Address → Prop}

/-- The rest of a run ends with the tree under `r`, and touches nodes in `F`
only; without a tree it faults. -/
def Runs (next : Nat → Context → Nat) (t s : Nat) (ctx : Context) (h : NodeHeap)
    (F : Address → Prop) (r : NodePtr) (T' : Option Tree) : Prop :=
  handlers.Goes next t s ctx h (T'.map (fun T' ctx' h' => ctx'.root = ctx.root ∧
    Denotes (Ptr.Before (t + 1)) h' (some r) T' ∧ ∀ x, ¬ F x → ∀ f, h' (x, f) = h (x, f)))

theorem Runs.done {T' : Tree} (hop : ctx.op = .done)
    (hr : Denotes (Ptr.Before (t + 1)) h (some r) T') :
    Runs next t s ctx h F r (some T') :=
  Handlers.goes_some.mpr (Handlers.Ends.done (by simp [handlers, hop]) ⟨rfl, hr, fun _ _ _ => rfl⟩)

/-- What `update_cow` makes of a tree, once its caller has stored the new node,
the rest of the run updates. -/
def Enters (next : Nat → Context → Nat) (t ofs : Nat) (T : Tree) : Prop :=
  ∀ ⦃s n : Nat⦄ ⦃h : NodeHeap⦄ (ctx : Context), Denotes (Ptr.Before t) h ctx.tPast T →
    ctx.keyOfs = ofs →
    (updateCow ctx).wp t s n h (fun r n' h' => r.1.addr.Between t s n n' ∧
      (r.2.root = ctx.root ∧ r.2.tPast = ctx.tPast) ∧
        (∀ x, ¬ x.Fresh t s n → ∀ f, h' (x, f) = h (x, f)) ∧
      ∀ {s₁ : Nat} {h₁ : NodeHeap}, s < s₁ →
        (∀ x, x.Fresh t s n ∨ x.Before t → ∀ f, h₁ (x, f) = h' (x, f)) → ∀ root,
        Runs next t s₁ { r.2 with root := root, tCur := some r.1, tPast := extractPtr r.2.tPast } h₁
          (Ptr.Fresh t s n) r.1 (cowUpdate ctx.key ctx.val T ofs false))

def EntersNode (next : Nat → Context → Nat) (t ofs : Nat) (T : Tree) : Prop :=
  ∀ ⦃s n : Nat⦄ ⦃h : NodeHeap⦄ ⦃p : Address⦄ (tag : Option Nat) (ctx : Context),
    Denotes (Ptr.Before t) h (some (plain p)) T → ctx.keyOfs = ofs →
    (updateNode ctx p).wp t s n h (fun r n' h' => r.1.Between t s n n' ∧
      (r.2.root = ctx.root ∧ r.2.tPast = ctx.tPast) ∧
        (∀ x, ¬ x.Fresh t s n → ∀ f, h' (x, f) = h (x, f)) ∧
      ∀ {s₁ : Nat} {h₁ : NodeHeap}, s < s₁ →
        (∀ x, x.Fresh t s n ∨ x.Before t → ∀ f, h₁ (x, f) = h' (x, f)) → ∀ root,
        Runs next t s₁ { r.2 with root := root, tCur := some ⟨r.1, tag⟩, tPast := some (plain p) }
          h₁ (Ptr.Fresh t s n) (plain r.1) (cowUpdate ctx.key ctx.val T ofs tag.isSome))

theorem enters_null : Enters next t ofs .null := by
  intro s n h ctx hpast hofs
  obtain rfl := hofs
  have hnone : ctx.tPast = none := hpast
  simp only [updateCow, hnone, Prog.wp_bind, Prog.wp_pure]
  apply Prog.wp_mono (allocLeaf_spec ctx.sno ctx.keyOfs ctx.key ctx.val)
  rintro r n' h' ⟨haddr, rfl, hframe, hleaf⟩
  have hfresh : r.addr.Fresh t s n := by
    rw [haddr]
    simp
  refine ⟨by rw [haddr]; simp, ⟨trivial, trivial⟩, fun x hx f => hframe x (haddr ▸ hfresh.ne hx) f,
    fun {s₁ h₁} _ hagree root => ?_⟩
  refine Runs.done rfl (hleaf.frame ?_)
  rintro x rfl
  rw [haddr] at hfresh
  exact ⟨hfresh.before, hagree _ (.inl hfresh)⟩

section Fork

variable {cs : (f : Field) → Option (Cell f)}

structure Forked (t s n : Nat) (ctx : Context) (hd : Head) (m : Nat)
    (cs : (f : Field) → Option (Cell f)) (leaf : NodePtr) (h : NodeHeap) : Prop where
  par : h (⟨t, s, n, .node4⟩, Field.head) = some (ctx.sno, forkHead .node4 ctx.keyOfs m ctx.key
    (partialKey hd.pfx (hd.pfxOfs + m) 8) (partialKey ctx.key (ctx.keyOfs + m) 8))
  chs : h (⟨t, s, n, .node4⟩, Field.chs) = some (pairUp (partialKey hd.pfx (hd.pfxOfs + m) 8)
    (partialKey ctx.key (ctx.keyOfs + m) 8) (some (plain ⟨t, s, n + 1, hd.type⟩)) (some leaf))
  head : h (⟨t, s, n + 1, hd.type⟩, Field.head) = some (ctx.sno, shorten hd m)
  rest : ∀ f, f ≠ Field.head → h (⟨t, s, n + 1, hd.type⟩, f) = cs f
  leaf : Denotes (· = ⟨t, s, n + 1 + 1, .leaf⟩) h (some leaf)
    (newLeaf (ctx.keyOfs + m + 8) ctx.key ctx.val)

theorem Forked.frame {leaf : NodePtr} (u : Forked t s n ctx hd m cs leaf h)
    (hagree : ∀ x, Ptr.Fresh t s n x → ∀ f, h' (x, f) = h (x, f)) :
    Forked t s n ctx hd m cs leaf h' := by
  obtain ⟨par, chs, head, rest, hleaf⟩ := u
  refine ⟨?_, ?_, ?_, fun f hf => ?_, hleaf.frame ?_⟩
  · rw [hagree _ (by simp), par]
  · rw [hagree _ (by simp), chs]
  · rw [hagree _ (by simp), head]
  · rw [hagree _ (by simp), rest f hf]
  · rintro x rfl
    exact ⟨rfl, hagree _ (by simp; omega)⟩

theorem serial_ne {i j : Nat} {a b : NodeType} (hij : i ≠ j) :
    (⟨t, s, i, a⟩ : Address) ≠ ⟨t, s, j, b⟩ :=
  fun heq => hij (Ptr.mk.inj heq).2.2.1

theorem nodeForkCow_spec {v : Nat} (hold : p.Before t) (hhead : h (p, Field.head) = some (v, hd))
    (hcs : cs Field.head = some (ctx.sno, hd))
    (hcopy : ∀ {n : Nat} {h₁ : NodeHeap} (Q : Address → Nat → NodeHeap → Prop),
      (∀ f, h₁ (p, f) = h (p, f)) →
      Q ⟨t, s, n, hd.type⟩ (n + 1) (h₁.place ⟨t, s, n, hd.type⟩ cs) →
      (nodeCopy p ctx.sno).wp t s n h₁ Q) :
    (nodeForkCow ctx p m).wp t s n h (fun r n' h' => r = (⟨t, s, n, .node4⟩, { ctx with
        keyOfs := ctx.keyOfs + m
        chIdx :=
          if partialKey ctx.key (ctx.keyOfs + m) 8 < partialKey hd.pfx (hd.pfxOfs + m) 8 then 1
          else 0 }) ∧
      n < n' ∧ (∀ x, ¬ x.Fresh t s n → ∀ f, h' (x, f) = h (x, f)) ∧
      ∃ leaf, Forked t s n ctx hd m cs leaf h') := by
  have hne : ∀ {i : Nat} {site : NodeType}, p ≠ ⟨t, s, i, site⟩ :=
    fun heq => hold.not_fresh s 0 (by rw [heq]; simp)
  simp only [nodeForkCow, Prog.wp_bind, Prog.wp_new]
  apply hcopy
  · exact fun f => Heap.place_of_ne _ _ _ hne
  simp only [Prog.wp_load, Prog.wp_store, Heap.place_self, hcs, Option.some.injEq, exists_eq_left',
    Option.isSome_some,
    true_and, Heap.set_of_ptr_ne _ _ hne, Heap.place_of_ne _ _ _ hne, hhead]
  apply Prog.wp_mono (allocLeaf_spec ctx.sno _ ctx.key ctx.val)
  rintro leaf n' h' ⟨-, rfl, hframe, hleaf⟩
  have hpar : ∀ f, h' (⟨t, s, n, .node4⟩, f) = innerCells ctx.sno
      (newNode .node4 ctx.keyOfs m ctx.key) [] f := by
    intro f
    rw [hframe _ (serial_ne (by omega)), Heap.set_of_ptr_ne _ _ (serial_ne (by omega)),
      Heap.place_of_ne _ _ _ (serial_ne (by omega)), Heap.place_self]
  have hhead' : h' (⟨t, s, n + 1, hd.type⟩, Field.head) = some (ctx.sno, shorten hd m) := by
    rw [hframe _ (serial_ne (by omega)), Heap.set_self]
  have hrest : ∀ f, f ≠ Field.head → h' (⟨t, s, n + 1, hd.type⟩, f) = cs f := by
    intro f hf
    rw [hframe _ (serial_ne (by omega)), Heap.set_of_field_ne _ _ hf, Heap.place_self]
  have hold' : ∀ x, ¬ x.Fresh t s n → ∀ f, h' (x, f) = h (x, f) := by
    intro x hx f
    have hx' : ∀ {i : Nat} {site : NodeType}, n ≤ i → x ≠ ⟨t, s, i, site⟩ :=
      fun hi heq => hx (by rw [heq]; simp [hi])
    rw [hframe _ (hx' (by omega)), Heap.set_of_ptr_ne _ _ (hx' (by omega)),
      Heap.place_of_ne _ _ _ (hx' (by omega)), Heap.place_of_ne _ _ _ (hx' (by omega))]
  simp only [hpar, innerCells, Option.isSome_some, true_and, Prog.wp_pure,
    Heap.set_of_field_ne _ _ (show Field.chs ≠ Field.head by simp)]
  generalize hh₂ : Heap.set (Heap.set h' ⟨t, s, n, .node4⟩ Field.head _)
    ⟨t, s, n, .node4⟩ Field.chs _ = h₂
  have hother : ∀ x, x ≠ ⟨t, s, n, .node4⟩ → ∀ f, h₂ (x, f) = h' (x, f) := fun x hx f => by
    rw [← hh₂, Heap.set_of_ptr_ne _ _ hx, Heap.set_of_ptr_ne _ _ hx]
  refine ⟨by omega, fun x hx f => ?_, leaf, ?_⟩
  · rw [hother x (Ptr.Fresh.ne (by simp) hx), hold' x hx]
  constructor
  · rw [← hh₂, Heap.set_of_field_ne _ _ (by simp), Heap.set_self]
  · rw [← hh₂, Heap.set_self]
  · rw [hother _ (serial_ne (by omega)), hhead']
  · intro f hf
    rw [hother _ (serial_ne (by omega)), hrest f hf]
  · refine hleaf.frame ?_
    rintro x rfl
    exact ⟨rfl, hother _ (serial_ne (by omega))⟩

theorem fork_runs {leaf : NodePtr} {old : Head → Tree} {root : Option NodePtr}
    (u : Forked t s n ctx hd m cs leaf h₁)
    (hcopych : (copych ⟨t, s, n + 1, hd.type⟩ p).wp t s₁ 0 h₁ (fun _ _ h₂ =>
      Denotes (Ptr.Before (t + 1)) h₂ (some (plain ⟨t, s, n + 1, hd.type⟩)) (old (shorten hd m)) ∧
        ∀ x, x ≠ ⟨t, s, n + 1, hd.type⟩ → ∀ f, h₂ (x, f) = h₁ (x, f))) :
    Runs next t s₁ { ctx with
        keyOfs := ctx.keyOfs + m
        chIdx :=
          if partialKey ctx.key (ctx.keyOfs + m) 8 < partialKey hd.pfx (hd.pfxOfs + m) 8 then 1
          else 0
        op := .fork, root := root, tCur := some ⟨⟨t, s, n, .node4⟩, tag⟩
        tPast := some (plain p) } h₁
      (Ptr.Fresh t s n) (plain ⟨t, s, n, .node4⟩)
      (some (nodeForkInplace hd old m ctx.keyOfs ctx.key ctx.val)) := by
  apply Handlers.Goes.step rfl
  simp only [handlers, handleFork, extractPtr, deref, plain, Option.map_some, Prog.wp_bind,
    Prog.wp_pure, Prog.wp_load,
    u.chs, Option.some.injEq, exists_eq_left', pairUp_getD]
  apply Prog.wp_mono hcopych
  rintro ⟨⟩ n' h₂ ⟨hcopy, hframe⟩
  refine Handlers.goes_some.mpr (Handlers.Ends.done rfl ⟨rfl, ?_, fun x hx f => ?_⟩)
  · have hpar : ∀ f, h₂ (⟨t, s, n, .node4⟩, f) = h₁ (⟨t, s, n, .node4⟩, f) :=
      hframe _ (serial_ne (by omega))
    have hleaf : Denotes (Ptr.Before (t + 1)) h₂ (some leaf)
        (newLeaf (ctx.keyOfs + m + 8) ctx.key ctx.val) := by
      refine u.leaf.frame ?_
      rintro x rfl
      exact ⟨Nat.lt_succ_self t, hframe _ (serial_ne (by omega))⟩
    rw [nodeForkInplace]
    refine denotes_node.mpr ⟨Nat.lt_succ_self t, by simp [forkHead, newNode], ⟨ctx.sno, ?_⟩, _,
      (hpar _).trans u.chs,
      related_pairUp hcopy hleaf _ _⟩
    rw [hpar, u.par]
  · exact hframe x (Ptr.Fresh.ne (by simp) hx) f

end Fork

theorem entersNode_leaf (old : Nat) : EntersNode next t ofs (.leaf hd old) := by
  rintro s n h p tag ctx hr rfl
  obtain ⟨hs, htype, ⟨v, hhead⟩, hval⟩ := denotes_leaf.mp hr
  have hcopy : ∀ {n : Nat} {h₁ : NodeHeap} (Q : Address → Nat → NodeHeap → Prop),
      (∀ f, h₁ (p, f) = h (p, f)) →
      Q ⟨t, s, n, hd.type⟩ (n + 1) (h₁.place ⟨t, s, n, hd.type⟩ (leafCells ctx.sno hd old)) →
        (nodeCopy p ctx.sno).wp t s n h₁ Q := fun Q hsame =>
    nodeCopy_leaf Q ((hsame _).trans hhead) htype ((hsame _).trans hval)
  simp only [updateNode, Prog.wp_bind, Prog.wp_load, hhead, Option.some.injEq, exists_eq_left']
  rw [cowUpdate_of_not (by rw [splitsTagged]), updateInplace]
  by_cases hmis : pmlen hd ctx.key < hd.pfxLen
  · simp only [if_pos hmis, Prog.wp_bind, Prog.wp_pure]
    apply Prog.wp_mono (nodeForkCow_spec hs hhead rfl hcopy)
    rintro _ n' h' ⟨rfl, hn, hframe, leaf, hforked⟩
    refine ⟨by simp [hn], ⟨rfl, rfl⟩, hframe, fun {s₁ h₁} hlt hagree root => ?_⟩
    have hforked₁ := hforked.frame fun x hx => hagree x (.inl hx)
    refine fork_runs hforked₁ ?_
    have hp : ∀ f, h₁ (p, f) = h (p, f) :=
      fun f => (hagree p (.inr hs) f).trans (hframe p (hs.not_fresh s n) f)
    refine copych_leaf hforked₁.head ((hp _).trans hhead) htype ⟨?_, fun _ _ _ => rfl⟩
    refine denotes_leaf.mpr ⟨Nat.lt_succ_self t, htype, ⟨ctx.sno, hforked₁.head⟩, ?_⟩
    rw [hforked₁.rest _ (by simp)]
    rfl
  · simp only [if_neg hmis, if_pos htype, leafUpdate, Prog.wp_bind, Prog.wp_pure, Prog.wp_store]
    apply hcopy _ fun _ => rfl
    have hnew : Ptr.Fresh t s n (⟨t, s, n, hd.type⟩ : Address) := by simp
    refine ⟨by simp [leafCells], by simp, ⟨trivial, trivial⟩, fun x hx f => ?_,
      fun {s₁ h₁} hlt hagree root => ?_⟩
    · rw [Heap.set_of_ptr_ne _ _ (hnew.ne hx), Heap.place_of_ne _ _ _ (hnew.ne hx)]
    · refine Runs.done rfl (denotes_leaf.mpr ⟨Nat.lt_succ_self t, htype, ⟨ctx.sno, ?_⟩, ?_⟩)
      · rw [hagree _ (.inl hnew), Heap.set_of_field_ne _ _ (by simp), Heap.place_self]
        rfl
      · rw [hagree _ (.inl hnew), Heap.set_self]

theorem Runs.imp {o : Option Tree} {Q : Tree → Context → NodeHeap → Prop}
    (hr : Runs next t s ctx h F r o)
    (hQ : ∀ T' ctx' h', ctx'.root = ctx.root → Denotes (Ptr.Before (t + 1)) h' (some r) T' →
      (∀ x, ¬ F x → ∀ f, h' (x, f) = h (x, f)) → Q T' ctx' h') :
      handlers.Goes next t s ctx h (o.map Q) := by
  cases o with
  | none => exact hr
  | some T' =>
      refine Handlers.goes_some.mpr (Handlers.Ends.mono (Handlers.goes_some.mp hr) ?_)
      rintro ctx' h' ⟨hroot, hdenotes, hframe⟩
      exact hQ T' ctx' h' hroot hdenotes hframe

section Node

variable {chs : List Tree} {ps : List (Option NodePtr)}

theorem search_runs {v w : Nat} (hlt : ∀ s c, s < next s c) (hs : s < s₁)
    (hcur : ctx.tCur = some ⟨tp, tag⟩)
    (hpast : ctx.tPast = some (plain p)) (hop : ctx.op = .search) (htp : tp.Between t s n m)
    (hp : p.Before t) (htype : hd.type ≠ .leaf) (hnew : h₁ (tp, Field.head) = some (v, hd))
    (hnil : h₁ (tp, Field.chs) = some [])
    (hhead : h₁ (p, Field.head) = some (w, hd)) (hchs : h₁ (p, Field.chs) = some ps)
    (hps : List.Forall₂ (Denotes (Ptr.Before t) h₁) ps chs)
    (hchild : Enters next t ctx.keyOfs (getch chs ctx.chIdx)) :
    Runs next t s₁ ctx h₁ (Ptr.Fresh t s n) (plain tp)
      ((cowUpdate ctx.key ctx.val (getch chs ctx.chIdx) ctx.keyOfs false).map
        (fun T' => .node hd (setch chs ctx.chIdx T'))) := by
  have hpt : p ≠ tp := fun heq => hp.not_fresh s n (heq ▸ htp.fresh)
  have htps : ∀ i, ¬ tp.Fresh t s₁ i := by
    rintro i ⟨-, hf⟩
    have := htp.2.1
    omega
  have hold : ∀ x : Address, x.Before t → x ≠ tp :=
    fun x hx heq => hx.not_fresh s n (heq ▸ htp.fresh)
  have hframe : ∀ x, x ≠ tp → ∀ f, h₁.set tp Field.chs ps (x, f) = h₁ (x, f) := fun x hx f =>
    Heap.set_of_ptr_ne _ _ hx
  have hps' : List.Forall₂ (Denotes (Ptr.Before t) (h₁.set tp Field.chs ps)) ps chs :=
    forall₂_frame hps fun x hx => ⟨hx, hframe x (hold x hx)⟩
  have hhandle : handlers.handle ctx = handleSearch ctx := by simp only [handlers, hop]
  apply Handlers.Goes.step (by simp [handlers, hop])
  have hderef : deref (extractPtr ctx.tCur) = pure tp := by
    rw [hcur]
    rfl
  have hderef' : deref ctx.tPast = pure p := by
    rw [hpast]
    rfl
  rw [hhandle]
  simp only [handleSearch, hderef, hderef', Prog.wp_bind, Prog.wp_pure]
  refine copych_inner hnew hhead htype rfl hchs (by simp [hnil]) ?_
  simp only [Prog.wp_load]
  refine ⟨ps, (hframe p hpt _).trans hchs, ?_⟩
  apply Prog.wp_mono (hchild { ctx with tPast := getch ps ctx.chIdx }
    (related_get hps' denotes_null ctx.chIdx) rfl)
  rintro ⟨q, next'⟩ n' h₂ ⟨hq, ⟨hroot, -⟩, hframe₂, hruns⟩
  have htp₂ : ∀ f, h₂ (tp, f) = h₁.set tp Field.chs ps (tp, f) := hframe₂ tp (htps 0)
  simp only [storeCh, Prog.wp_bind, Prog.wp_load, Prog.wp_store, htp₂, Heap.set_self,
    Option.some.injEq,
    exists_eq_left', Option.isSome_some, true_and]
  have hne : ∀ x : Address, x.Fresh t s₁ 0 ∨ x.Before t → x ≠ tp := by
    rintro x (hx | hx)
    · exact fun heq => htps 0 (heq ▸ hx)
    · exact hold x hx
  rw [Option.map_map]
  refine (hruns (hlt s₁ _) (fun x hx f => Heap.set_of_ptr_ne _ _ (hne x hx)) next'.root).imp ?_
  intro T' ctx' h₃ hroot' hdenotes hframe₃
  have hfresh : ∀ x : Address, ¬ x.Fresh t s n → ¬ x.Fresh t s₁ 0 :=
    fun x hx hf => hx (hf.mono (.inl hs))
  refine ⟨hroot'.trans hroot, ?_, fun x hx f => ?_⟩
  · have hhead₃ : h₃ (tp, Field.head) = some (v, hd) := by
      rw [hframe₃ tp (htps 0), Heap.set_of_field_ne _ _ (by simp), htp₂, Heap.set_of_field_ne _ _
        (by simp), hnew]
    have hchs₃ : h₃ (tp, Field.chs) = some (setch ps ctx.chIdx (some q)) := by
      rw [hframe₃ tp (htps 0), Heap.set_self]
    have hps₃ : List.Forall₂ (Denotes (Ptr.Before (t + 1)) h₃) ps chs :=
      forall₂_frame hps fun x hx => ⟨hx.succ, fun f => by
        rw [hframe₃ x (hx.not_fresh _ _), Heap.set_of_ptr_ne _ _ (hold x hx), hframe₂ x
          (hx.not_fresh _ _),
          hframe x (hold x hx)]⟩
    exact denotes_node.mpr ⟨htp.fresh.before, htype, ⟨v, hhead₃⟩, _, hchs₃,
      related_put hps₃ denotes_null hdenotes ctx.chIdx⟩
  · have hxt : x ≠ tp := htp.fresh.ne hx
    rw [hframe₃ x (hfresh x hx), Heap.set_of_ptr_ne _ _ hxt, hframe₂ x (hfresh x hx), hframe x hxt]

theorem insert_denotes {new : Head} {v idx key val : Nat} {lf : Address} {leaf : NodePtr}
    {h₂ : NodeHeap}
    (htp : tp.Fresh t s n) (hlf : lf.Fresh t s n) (hne : tp ≠ lf) (htype : new.type ≠ .leaf)
    (hnew : h₁ (tp, Field.head) = some (v, new))
    (hps : List.Forall₂ (Denotes (Ptr.Before t) h₁) ps chs)
    (hframe : ∀ x, x ≠ lf → ∀ f, h₂ (x, f) = h₁.set tp Field.chs (copychAt new hd ps idx) (x, f))
    (hleaf : Denotes (· = lf) h₂ (some leaf) (newLeaf ofs key val)) :
    Denotes (Ptr.Before (t + 1))
    (h₂.set tp Field.chs (setch (copychAt new hd ps idx) idx (some leaf)))
        (some (plain tp)) (.node new (setch (copychAt new hd chs idx) idx (newLeaf ofs key val))) ∧
      ∀ x, ¬ x.Fresh t s n → ∀ f,
        h₂.set tp Field.chs (setch (copychAt new hd ps idx) idx (some leaf)) (x, f) =
        h₁ (x, f) := by
  have hother : ∀ x, x ≠ tp → x ≠ lf → ∀ f,
      h₂.set tp Field.chs (setch (copychAt new hd ps idx) idx (some leaf)) (x, f) = h₁ (x, f) :=
        fun x hxt hxl f => by
          rw [Heap.set_of_ptr_ne _ _ hxt, hframe x hxl, Heap.set_of_ptr_ne _ _ hxt]
  refine ⟨denotes_node.mpr ⟨htp.before, htype, ⟨v, ?_⟩, _, Heap.set_self _ _ _ _, ?_⟩, fun x hx f =>
    hother x (htp.ne hx) (hlf.ne hx) f⟩
  · rw [Heap.set_of_field_ne _ _ (by simp), hframe tp hne, Heap.set_of_field_ne _ _ (by simp), hnew]
  · have hps₃ :=
      forall₂_frame hps
      fun x hx => ⟨hx.succ, hother x (htp.ne (hx.not_fresh s n)) (hlf.ne (hx.not_fresh s n))⟩
    refine related_put (related_copychAt hps₃ denotes_null new hd idx) denotes_null
      (hleaf.frame ?_) idx
    rintro x rfl
    exact ⟨hlf.before, fun f => Heap.set_of_ptr_ne _ _ hne.symm⟩

theorem insert_runs {new : Head} {v w : Nat} (hdvd : 4 ∣ ctx.keyOfs) (hs : s < s₁)
    (hcur : ctx.tCur = some ⟨tp, tag⟩)
    (hpast : ctx.tPast = some (plain p)) (hop : ctx.op = .insert) (htp : tp.Between t s n m)
    (htype : new.type ≠ .leaf)
    (hnew : h₁ (tp, Field.head) = some (v, new)) (hnil : h₁ (tp, Field.chs) = some [])
    (hhead : h₁ (p, Field.head) = some (w, hd)) (hchs : h₁ (p, Field.chs) = some ps)
    (hps : List.Forall₂ (Denotes (Ptr.Before t) h₁) ps chs) :
    Runs next t s₁ ctx h₁ (Ptr.Fresh t s n) (plain tp) (some (.node new
      (setch (copychAt new hd chs ctx.chIdx) ctx.chIdx (newLeaf ctx.keyOfs ctx.key ctx.val)))) := by
  have hlf : Ptr.Fresh t s n (⟨t, s₁, 0, .leaf⟩ : Address) := by simp [hs]
  have htpl : tp ≠ ⟨t, s₁, 0, .leaf⟩ := by
    rintro rfl
    simp only [Ptr.between_mk] at htp
    omega
  have hderef : deref (extractPtr ctx.tCur) = pure tp := by
    rw [hcur]
    rfl
  have hderef' : deref ctx.tPast = pure p := by
    rw [hpast]
    rfl
  have hhandle : handlers.handle ctx = handleInsert ctx := by simp only [handlers, hop]
  apply Handlers.Goes.step (by simp [handlers, hop])
  rw [hhandle]
  simp only [handleInsert, hderef, hderef', Prog.wp_bind, Prog.wp_pure, Prog.wp_load, Prog.wp_store,
    hnew, hhead, hchs,
    Option.some.injEq, exists_eq_left', hnil, Option.isSome_some, true_and]
  by_cases hhalf : ctx.keyOfs % 8 = 0
  · simp only [if_pos hhalf, Prog.wp_bind, Prog.wp_pure]
    apply Prog.wp_mono (allocLeaf_spec ctx.sno ctx.keyOfs ctx.key ctx.val)
    rintro leaf n' h₂ ⟨-, rfl, hframe, hleaf⟩
    simp only [storeCh, Prog.wp_bind, Prog.wp_load, Prog.wp_store, hframe tp htpl, Heap.set_self,
      Option.some.injEq,
      exists_eq_left', Option.isSome_some, true_and]
    exact Handlers.goes_some.mpr (Handlers.Ends.done rfl
      ⟨rfl, insert_denotes htp.fresh hlf htpl htype hnew hps hframe hleaf⟩)
  · simp only [if_neg hhalf, Prog.wp_bind, Prog.wp_pure]
    apply Prog.wp_mono (allocHalfLeaf_spec ctx.sno ctx.key ctx.val (by omega))
    rintro leaf n' h₂ ⟨hframe, hleaf⟩
    simp only [storeCh, Prog.wp_bind, Prog.wp_load, Prog.wp_store, hframe tp htpl, Heap.set_self,
      Option.some.injEq,
      exists_eq_left', Option.isSome_some, true_and]
    exact Handlers.goes_some.mpr (Handlers.Ends.done rfl
      ⟨rfl, insert_denotes htp.fresh hlf htpl htype hnew hps hframe hleaf⟩)

theorem plain_of_wf {S : Address → Prop} {r : Option NodePtr} (w : Wf ofs T) (hdvd : 8 ∣ ofs)
    (hne : T ≠ .null) (hr : Denotes S h r T) : ∃ c, r = some (plain c) := by
  cases w with
  | null => exact absurd rfl hne
  | leaf =>
      obtain ⟨c, hc, -⟩ := hr
      exact ⟨c, hc⟩
  | node =>
      obtain ⟨c, hc, -⟩ := hr
      exact ⟨c, hc⟩
  | tagged half => omega

theorem split_runs {pkey v : Nat} {qs : List (Option NodePtr)} (hdvd : 8 ∣ ctx.keyOfs)
    (hle : ctx.keyOfs ≤ 64)
    (hs : s < s₁) (hcur : ctx.tCur = some (plain tp)) (hpast : ctx.tPast = some (plain p))
    (hop : ctx.op = .split)
    (hn : hd.type = .node16) (hwf : hd.Wf chs.length) (hfull : Tree.null ∉ chs)
    (hchildren : ∀ c ∈ chs, Wf ctx.keyOfs c)
    (hpkey : partialKey ctx.key (ctx.keyOfs - 8) 8 = pkey) (hlt : pkey < 256)
    (habs : pkey ∉ hd.keys)
    (u : UpperAt (Ptr.Before t) (Ptr.Between t s n m) h₁ tp (Aert.createUpperHalf hd pkey) qs)
    (hhead : h₁ (p, Field.head) = some (v, hd)) (hchs : h₁ (p, Field.chs) = some ps)
    (hps : List.Forall₂ (Denotes (Ptr.Before t) h₁) ps chs) :
    Runs next t s₁ ctx h₁ (Ptr.Fresh t s n) (plain tp)
      (some (nodeSplitInplace hd chs pkey ctx.keyOfs ctx.key ctx.val)) := by
  have hall := node16_keys_lt hn hwf hlt
  have hsorted : Sorted hd chs.length := Compact.sorted (.inr (.inl hn)) hwf.laid
  have hlen : hd.keys.length = chs.length := hsorted.keys_length.trans hsorted.chs_length.symm
  have hnodup : hd.keys.Nodup := hsorted.ascending.imp Nat.ne_of_lt
  have hdisj : ∀ q : Address, q.Between t s n m → ¬ q.Before t :=
    fun q hq hb => hb.not_fresh s n hq.fresh
  have hps' : List.Forall₂ (fun r T => ∃ c, r = some (plain c) ∧
      Denotes (Ptr.Before t) h₁ (some (plain c)) T) ps chs := by
    refine related_of_getD hps.length_eq fun i hi => ?_
    have hmem : chs.getD i default ∈ chs := by
      rw [List.getD_eq_getElem?_getD, List.getElem?_eq_getElem (hps.length_eq ▸ hi),
        Option.getD_some]
      exact List.getElem_mem _
    have hden := related_get hps denotes_null i
    obtain ⟨c, hc⟩ := plain_of_wf (hchildren _ hmem) hdvd (fun heq => hfull (heq ▸ hmem)) hden
    exact ⟨c, hc, hc ▸ hden⟩
  have hes : ∀ e ∈ hd.keys.zip chs, e.1 ∈ pkey :: hd.keys ∧ Tree.null = .null ∧ e.2 ≠ .null := by
    intro e he
    obtain ⟨hk, hc⟩ := List.of_mem_zip (a := e.1) (b := e.2) he
    exact ⟨List.mem_cons_of_mem _ hk, rfl, fun heq => hfull (heq ▸ hc)⟩
  have hderef : deref ctx.tPast = pure p := by
    rw [hpast]
    rfl
  have hhandle : handlers.handle ctx = handleSplit ctx := by simp only [handlers, hop]
  apply Handlers.Goes.step (by simp [handlers, hop])
  rw [hhandle]
  simp only [handleSplit, hderef, hcur, Prog.wp_bind, Prog.wp_pure, Prog.wp_load, hhead, hchs,
    Option.some.injEq,
    exists_eq_left']
  apply Prog.wp_mono (createLowerHalves_spec hdisj hall (related_zip hps' hd.keys)
    (fun _ _ _ => rfl)
    ⟨halves_null hall, qs, u⟩ (by rw [List.map_fst_zip hlen.le]; exact hnodup) hes)
  rintro _ n₁ h₂ ⟨rfl, hframe₂, hhalves, qs₂, u₂⟩
  apply Prog.wp_mono (allocLeaf_spec ctx.sno ctx.keyOfs ctx.key ctx.val)
  rintro leaf n₂ h₃ ⟨haddr, rfl, hframe₃, hleaf⟩
  obtain ⟨lf, hplain⟩ :=
    plain_of_wf (newLeaf_wf (by omega) hle ctx.key ctx.val) hdvd (newLeaf_ne _ _ _) hleaf
  obtain rfl : leaf = plain lf := Option.some.inj hplain
  obtain rfl : lf = ⟨t, s₁, 0, .leaf⟩ := haddr
  have hlater : ∀ x : Address, x.Between t s n m → x ≠ ⟨t, s₁, 0, .leaf⟩ := by
    rintro x hx rfl
    simp only [Ptr.between_mk] at hx
    omega
  have hearlier : ∀ x : Address, x.Before t → x ≠ ⟨t, s₁, 0, .leaf⟩ := fun x hx heq =>
    hx.not_fresh s₁ 0 (by rw [heq]; simp)
  have u₃ : UpperAt (fun x => x.Before t ∨ x = ⟨t, s₁, 0, .leaf⟩)
      (Ptr.Between t s n m) h₃ tp _ qs₂ :=
    u₂.frame (fun x hx => ⟨.inl hx, hframe₃ x (hearlier x hx)⟩) fun x hx => hframe₃ x (hlater x hx)
  have hnull : (hd.keys.zip chs).foldl (fun F e => Function.update F e.1 e.2)
      (fun _ => Tree.null) pkey = .null := by
    have hfold : (hd.keys.zip chs).foldl (fun F e => Function.update F e.1 e.2)
      (fun _ => Tree.null) =
        look hd.keys chs := foldl_update hnodup hlen
    rw [hfold]
    exact look_eq_default habs
  rw [hpkey]
  apply Prog.wp_mono (createLowerHalf_spec ⟨hhalves, qs₂, u₃⟩ ?_ hall List.mem_cons_self hnull
    (newLeaf_ne _ _ _)
    (hleaf.frame fun x hx => ⟨.inr hx, fun _ => rfl⟩))
  · rintro _ n₄ h₄ ⟨rfl, hframe₄, -, qs₄, u₄⟩
    refine Handlers.goes_some.mpr (Handlers.Ends.done rfl ⟨rfl, ?_, fun x hx f => ?_⟩)
    · rw [nodeSplitInplace, hpkey]
      refine u₄.denotes ?_ fun x hx => hx.fresh.before
      rintro x (hx | rfl)
      · exact hx.succ
      · exact Nat.lt_succ_self t
    · have hbetween : ¬ x.Between t s n m := fun hx' => hx hx'.fresh
      have hlf : x ≠ ⟨t, s₁, 0, .leaf⟩ := fun heq => hx (by rw [heq]; simp [hs])
      rw [hframe₄ x hbetween, hframe₃ x hlf, hframe₂ x hbetween]
  · rintro x hx (hx' | hx')
    · exact hdisj x hx hx'
    · exact hlater x hx hx'

/-- `create_lower_half` takes the tag of the upper half for a part of its address. -/
theorem split_faults {lo v : Nat} (hcur : ctx.tCur = some ⟨tp, some lo⟩)
    (hpast : ctx.tPast = some (plain p))
    (hop : ctx.op = .split) (hhead : h₁ (p, Field.head) = some (v, hd))
    (hchs : h₁ (p, Field.chs) = some ps)
    (hne : hd.keys.zip ps ≠ []) : Runs next t s₁ ctx h₁ F r none := by
  intro Q he
  have hhandle : handlers.handle ctx = handleSplit ctx := by simp only [handlers, hop]
  have hderef : deref ctx.tPast = pure p := by
    rw [hpast]
    rfl
  have hwp := he.handled (by simp [handlers, hop])
  obtain ⟨e, es, hes⟩ := List.exists_cons_of_ne_nil hne
  have hloop : (e :: es).forM (fun e => createLowerHalf (some ⟨tp, some lo⟩) e.2 e.1) =
    .fault := rfl
  rw [hhandle] at hwp
  simp only [handleSplit, hderef, hcur, Prog.wp_bind, Prog.wp_pure, Prog.wp_load, hhead, hchs,
    Option.some.injEq,
    exists_eq_left', hes, hloop, Prog.wp_fault] at hwp

def Entered (next : Nat → Context → Nat) (t s n : Nat) (h : NodeHeap) (ctx : Context) (p : Address)
    (tag : Option Nat) (T : Tree) (r : Address × Context) (n' : Nat) (h' : NodeHeap) : Prop :=
  r.1.Between t s n n' ∧ (r.2.root = ctx.root ∧ r.2.tPast = ctx.tPast) ∧
    (∀ x, ¬ x.Fresh t s n → ∀ f, h' (x, f) = h (x, f)) ∧
      ∀ {s₁ : Nat} {h₁ : NodeHeap}, s < s₁ →
        (∀ x, x.Fresh t s n ∨ x.Before t → ∀ f, h₁ (x, f) = h' (x, f)) → ∀ root,
        Runs next t s₁ { r.2 with root := root, tCur := some ⟨r.1, tag⟩, tPast := some (plain p) }
          h₁ (Ptr.Fresh t s n) (plain r.1) (cowUpdate ctx.key ctx.val T ctx.keyOfs tag.isSome)

theorem before_same (hframe : ∀ x, ¬ Ptr.Fresh t s n x → ∀ f, h' (x, f) = h (x, f))
    (hagree : ∀ x, Ptr.Fresh t s n x ∨ Ptr.Before t x → ∀ f, h₁ (x, f) = h' (x, f)) {x : Address}
    (hx : Ptr.Before t x) (f : Field) : h₁ (x, f) = h (x, f) :=
  (hagree x (.inr hx) f).trans (hframe x (hx.not_fresh s n) f)

theorem enters_fork (hr : Denotes (Ptr.Before t) h (some (plain p)) (.node hd chs))
    (hmis : pmlen hd ctx.key < hd.pfxLen) :
    (updateNode ctx p).wp t s n h (Entered next t s n h ctx p tag (.node hd chs)) := by
  obtain ⟨hs, htype, ⟨v, hhead⟩, ps, hchs, hps⟩ := denotes_node.mp hr
  have hcopy : ∀ {n : Nat} {h₁ : NodeHeap} (Q : Address → Nat → NodeHeap → Prop),
      (∀ f, h₁ (p, f) = h (p, f)) →
      Q ⟨t, s, n, hd.type⟩ (n + 1) (h₁.place ⟨t, s, n, hd.type⟩ (innerCells ctx.sno hd [])) →
        (nodeCopy p ctx.sno).wp t s n h₁ Q := fun Q hsame =>
    nodeCopy_inner Q ((hsame _).trans hhead) htype
  have hnot : ∀ below, splitsTagged ctx.key (.node hd chs) ctx.keyOfs below = false :=
    fun below => by rw [splitsTagged_node, if_pos hmis]
  simp only [updateNode, Prog.wp_bind, Prog.wp_load, hhead, Option.some.injEq, exists_eq_left',
    if_pos hmis, Prog.wp_pure]
  apply Prog.wp_mono (nodeForkCow_spec hs hhead rfl hcopy)
  rintro _ n' h' ⟨rfl, hn, hframe, leaf, hforked⟩
  refine ⟨by simp [hn], ⟨rfl, rfl⟩, hframe, fun {s₁ h₁} _ hagree root => ?_⟩
  rw [cowUpdate_of_not (hnot _), updateInplace_node, if_pos hmis]
  have hforked₁ := hforked.frame fun x hx => hagree x (.inl hx)
  have hnil : h₁ (⟨t, s, n + 1, hd.type⟩, Field.chs) = some [] := hforked₁.rest _ (by simp)
  refine fork_runs hforked₁
    (copych_inner hforked₁.head ((before_same hframe hagree hs _).trans hhead) htype rfl
    ((before_same hframe hagree hs _).trans hchs) (by simp [hnil]) ⟨?_,
      fun x hx f => Heap.set_of_ptr_ne _ _ hx⟩)
  refine denotes_node.mpr ⟨Nat.lt_succ_self t, htype, ⟨ctx.sno, ?_⟩, ps, Heap.set_self _ _ _ _,
    forall₂_frame hps fun x hx => ⟨hx.succ, fun f => ?_⟩⟩
  · rw [Heap.set_of_field_ne _ _ (by simp), hforked₁.head]
  · rw [Heap.set_of_ptr_ne _ _ (fun heq => hx.not_fresh s n (by rw [heq]; simp)),
      before_same hframe hagree hx]

theorem enters_search (hlt : ∀ s c, s < next s c)
    (hchild : ∀ c ∈ chs, Enters next t (ctx.keyOfs + hd.pfxLen + nodeKeyLen hd.type) c)
    (hr : Denotes (Ptr.Before t) h (some (plain p)) (.node hd chs))
    (hmis : ¬ pmlen hd ctx.key < hd.pfxLen) {idx : Nat}
    (hi : findidx hd (partialKey ctx.key (ctx.keyOfs + hd.pfxLen) (nodeKeyLen hd.type)) =
    some idx) :
    (updateNode ctx p).wp t s n h (Entered next t s n h ctx p tag (.node hd chs)) := by
  obtain ⟨hs, htype, ⟨v, hhead⟩, ps, hchs, hps⟩ := denotes_node.mp hr
  simp only [updateNode, Prog.wp_bind, Prog.wp_load, hhead, Option.some.injEq, exists_eq_left',
    if_neg hmis, if_neg htype,
    hi, Prog.wp_pure]
  apply nodeCopy_inner _ hhead htype
  have hnew : Ptr.Between t s n (n + 1) (⟨t, s, n, hd.type⟩ : Address) := by simp
  have hframe : ∀ x, ¬ Ptr.Fresh t s n x →
    ∀ f, h.place ⟨t, s, n, hd.type⟩ (innerCells ctx.sno hd []) (x, f) =
      h (x, f) := fun x hx f => Heap.place_of_ne _ _ _ (hnew.fresh.ne hx)
  refine ⟨hnew, ⟨rfl, rfl⟩, hframe, fun {s₁ h₁} hss hagree root => ?_⟩
  have hcur : ∀ f, h₁ (⟨t, s, n, hd.type⟩, f) = innerCells ctx.sno hd [] f := fun f => by
    rw [hagree _ (.inl hnew.fresh), Heap.place_self]
  have henters : Enters next t (ctx.keyOfs + hd.pfxLen + nodeKeyLen hd.type) (getch chs idx) := by
    rcases getD_mem idx chs with heq | hmem
    · rw [getch, heq]
      exact enters_null
    · exact hchild _ hmem
  rw [cowUpdate_child hmis hi]
  exact search_runs hlt hss rfl rfl rfl hnew hs htype (hcur _) (hcur _)
    ((before_same hframe hagree hs _).trans hhead)
    ((before_same hframe hagree hs _).trans hchs)
    (forall₂_frame hps fun x hx => ⟨hx, before_same hframe hagree hx⟩) henters

theorem enters_split (w : Wf ctx.keyOfs (.node hd chs))
    (hr : Denotes (Ptr.Before t) h (some (plain p)) (.node hd chs))
    (hmis : ¬ pmlen hd ctx.key < hd.pfxLen)
    (hi : findidx hd (partialKey ctx.key (ctx.keyOfs + hd.pfxLen) (nodeKeyLen hd.type)) = none)
    (hsize : hd.size = 16) :
    (updateNode ctx p).wp t s n h (Entered next t s n h ctx p tag (.node hd chs)) := by
  obtain ⟨hs, htype, ⟨v, hhead⟩, ps, hchs, hps⟩ := denotes_node.mp hr
  simp only [updateNode, Prog.wp_bind, Prog.wp_load, hhead, Option.some.injEq, exists_eq_left',
    if_neg hmis, if_neg htype,
    hi, if_pos hsize, Prog.wp_pure]
  apply Prog.wp_mono (createUpperHalf_spec hhead fun x (hx : Ptr.Before t x) => hx.not_fresh s n)
  rintro q n' h' ⟨hframe, qs, u⟩
  refine ⟨u.own, ⟨rfl, rfl⟩, hframe, fun {s₁ h₁} hss hagree root => ?_⟩
  have hhead₁ : h₁ (p, Field.head) = some (v, hd) := (before_same hframe hagree hs _).trans hhead
  have hchs₁ : h₁ (p, Field.chs) = some ps := (before_same hframe hagree hs _).trans hchs
  rw [cowUpdate_split hmis hsize hi]
  cases w with
  | node pfxOfs aligned len_le head full live children =>
      obtain ⟨hlen, hofs⟩ := aligned
      have hn := node16_of_full head.laid hsize
      have hw8 : nodeKeyLen hd.type = 8 := by rw [hn]; rfl
      cases tag with
      | some lo =>
          have hsorted : Sorted hd chs.length := Compact.sorted (.inr (.inl hn)) head.laid
          have hne : hd.keys.zip ps ≠ [] := by
            intro heq
            have hlen := congrArg List.length heq
            rw [List.length_zip, hsorted.keys_length, hps.length_eq, hsorted.chs_length,
              hsize] at hlen
            simp at hlen
          exact split_faults rfl rfl rfl hhead₁ hchs₁ hne
      | none =>
          have u₁ : UpperAt (Ptr.Before t) (Ptr.Between t s n n') h₁ q _ qs :=
            u.frame (fun x hx => ⟨hx, hagree x (.inr hx)⟩) fun x hx => hagree x (.inl hx.fresh)
          have hpkey : partialKey ctx.key (ctx.keyOfs + hd.pfxLen + nodeKeyLen hd.type - 8) 8 =
              partialKey ctx.key (ctx.keyOfs + hd.pfxLen) (nodeKeyLen hd.type) := by
            rw [hw8, Nat.add_sub_cancel]
          have hbyte : partialKey ctx.key (ctx.keyOfs + hd.pfxLen) (nodeKeyLen hd.type) <
              2 ^ nodeKeyLen hd.type :=
            partialKey_lt (nodeKeyLen_eq hd.type) len_le
          have hdvd : 8 ∣ ctx.keyOfs + hd.pfxLen + nodeKeyLen hd.type := by omega
          exact split_runs hdvd len_le hss rfl rfl rfl hn head (full (by simp [hn])) children hpkey
            (hbyte.trans_eq (by rw [hw8]; rfl))
              (Compact.absent (.inr (.inl hn)) head hi) u₁ hhead₁ hchs₁
            (forall₂_frame hps fun x hx => ⟨hx, before_same hframe hagree hx⟩)

theorem enters_insert (w : Wf ctx.keyOfs (.node hd chs))
    (hr : Denotes (Ptr.Before t) h (some (plain p)) (.node hd chs))
    (hmis : ¬ pmlen hd ctx.key < hd.pfxLen)
    (hi : findidx hd (partialKey ctx.key (ctx.keyOfs + hd.pfxLen) (nodeKeyLen hd.type)) = none)
    (hsize : hd.size ≠ 16) :
    (updateNode ctx p).wp t s n h (Entered next t s n h ctx p tag (.node hd chs)) := by
  obtain ⟨hs, htype, ⟨v, hhead⟩, ps, hchs, hps⟩ := denotes_node.mp hr
  obtain ⟨hlaid, hdvd⟩ : hd.Laid chs.length ∧ 4 ∣ ctx.keyOfs + hd.pfxLen + nodeKeyLen hd.type := by
    cases w with
    | node pfxOfs aligned len_le head _ _ _ =>
        obtain ⟨hlen, hofs⟩ := aligned
        have hwidth := nodeKeyLen_eq hd.type
        exact ⟨head.laid, by omega⟩
  simp only [updateNode, Prog.wp_bind, Prog.wp_load, hhead, Option.some.injEq, exists_eq_left',
    if_neg hmis, if_neg htype,
    hi, if_neg hsize, Prog.wp_pure, Prog.wp_new]
  have hinner :=
    extended_inner hd (partialKey ctx.key (ctx.keyOfs + hd.pfxLen) (nodeKeyLen hd.type)) htype
  have hgap : cowUpdate ctx.key ctx.val (.node hd chs) ctx.keyOfs tag.isSome = _ :=
    cowUpdate_gap hlaid hmis hsize hi
  simp only [← extended.eq_1] at hgap ⊢
  generalize extended hd (partialKey ctx.key (ctx.keyOfs + hd.pfxLen) (nodeKeyLen hd.type)) =
    new at hinner hgap
  have hnew : Ptr.Between t s n (n + 1) (⟨t, s, n, new.2.type⟩ : Address) := by simp
  have hframe : ∀ x, ¬ Ptr.Fresh t s n x →
    ∀ f, h.place ⟨t, s, n, new.2.type⟩ (innerCells ctx.sno new.2 []) (x, f) =
      h (x, f) := fun x hx f => Heap.place_of_ne _ _ _ (hnew.fresh.ne hx)
  refine ⟨hnew, ⟨rfl, rfl⟩, hframe, fun {s₁ h₁} hss hagree root => ?_⟩
  have hcur : ∀ f, h₁ (⟨t, s, n, new.2.type⟩, f) = innerCells ctx.sno new.2 [] f := fun f => by
    rw [hagree _ (.inl hnew.fresh), Heap.place_self]
  rw [hgap]
  exact insert_runs hdvd hss rfl rfl rfl hnew hinner (hcur _) (hcur _)
    ((before_same hframe hagree hs _).trans hhead)
    ((before_same hframe hagree hs _).trans hchs) (forall₂_frame hps
      fun x hx => ⟨hx, before_same hframe hagree hx⟩)

theorem entersNode_node (hlt : ∀ s c, s < next s c) (w : Wf ofs (.node hd chs))
    (hchild : ∀ c ∈ chs, Enters next t (ofs + hd.pfxLen + nodeKeyLen hd.type) c) :
    EntersNode next t ofs (.node hd chs) := by
  rintro s n h p tag ctx hr rfl
  by_cases hmis : pmlen hd ctx.key < hd.pfxLen
  · exact enters_fork hr hmis
  · cases hi : findidx hd (partialKey ctx.key (ctx.keyOfs + hd.pfxLen) (nodeKeyLen hd.type)) with
    | some idx => exact enters_search hlt hchild hr hmis hi
    | none =>
        by_cases hsize : hd.size = 16
        · exact enters_split w hr hmis hi hsize
        · exact enters_insert w hr hmis hi hsize

end Node

theorem HasHead.pfxOfs (hT : HasHead T hd) : T.pfxOfs = hd.pfxOfs := by cases hT <;> rfl

theorem hasHead_of_pfxOfs (hofs : T.pfxOfs = ofs + 4) : ∃ hd, HasHead T hd := by
  cases T with
  | null => simp [Tree.pfxOfs] at hofs
  | leaf hd val => exact ⟨hd, .leaf hd val⟩
  | node hd chs => exact ⟨hd, .node hd chs⟩
  | tagged => simp [Tree.pfxOfs] at hofs

theorem EntersNode.enters (hT : HasHead T hd) (he : EntersNode next t ofs T) :
    Enters next t ofs T := by
  intro s n h ctx hr hofs
  obtain ⟨p, hpast, -⟩ := hT.denotes hr
  rw [hpast] at hr
  simp only [updateCow, hpast, plain, Prog.wp_bind, Prog.wp_pure]
  apply Prog.wp_mono (he none ctx hr hofs)
  rintro ⟨q, ctx'⟩ n' h' ⟨hq, ⟨hroot, hpast'⟩, hframe, hruns⟩
  refine ⟨hq, ⟨hroot, hpast'.trans hpast⟩, hframe, fun hlt hagree root => ?_⟩
  have hold : extractPtr ctx'.tPast = some (plain p) := by
    rw [hpast', hpast]
    rfl
  have hruns' := hruns hlt hagree root
  rw [← hold] at hruns'
  exact hruns'

theorem nodehForkCow_spec (lo : Nat) :
    (nodehForkCow ctx p lo).wp t s n h (fun r n' h' => r = (⟨t, s, n, .nodeh4⟩, { ctx with
        chIdx := if partialKey ctx.key ctx.keyOfs 4 < lo then 1 else 0 }) ∧ n < n' ∧
      (∀ x, ¬ x.Fresh t s n → ∀ f, h' (x, f) = h (x, f)) ∧
      h' (⟨t, s, n, .nodeh4⟩, Field.head) = some (ctx.sno, forkHead .nodeh4 ctx.keyOfs 0 ctx.key lo
        (partialKey ctx.key ctx.keyOfs 4)) ∧
      ∃ leaf, h' (⟨t, s, n, .nodeh4⟩, Field.chs) =
      some (pairUp lo (partialKey ctx.key ctx.keyOfs 4) (some (plain p))
          (some leaf)) ∧
        Denotes (· = ⟨t, s, n + 1, .leaf⟩) h' (some leaf)
        (newLeaf (ctx.keyOfs + 4) ctx.key ctx.val)) := by
  simp only [nodehForkCow, Prog.wp_bind, Prog.wp_new, Prog.wp_store, Prog.wp_pure]
  apply Prog.wp_mono (allocLeaf_spec ctx.sno _ ctx.key ctx.val)
  rintro leaf n' h' ⟨-, rfl, hframe, hleaf⟩
  have hpar : ∀ f, h' (⟨t, s, n, .nodeh4⟩, f) = innerCells ctx.sno
      (newNode .nodeh4 ctx.keyOfs 0 ctx.key) [] f := by
    intro f
    rw [hframe _ (serial_ne (by omega)), Heap.place_self]
  have hold : ∀ x, ¬ x.Fresh t s n → ∀ f, h' (x, f) = h (x, f) := by
    intro x hx f
    have hx' : ∀ {i : Nat} {site : NodeType}, n ≤ i → x ≠ ⟨t, s, i, site⟩ :=
      fun hi heq => hx (by rw [heq]; simp [hi])
    rw [hframe _ (hx' (by omega)), Heap.place_of_ne _ _ _ (hx' (by omega))]
  simp only [hpar, innerCells, Option.isSome_some, true_and, Heap.set_of_field_ne _ _
    (show Field.chs ≠ Field.head by simp)]
  generalize hh₂ : Heap.set (Heap.set h' ⟨t, s, n, .nodeh4⟩ Field.head _)
    ⟨t, s, n, .nodeh4⟩ Field.chs _ = h₂
  have hother : ∀ x, x ≠ ⟨t, s, n, .nodeh4⟩ → ∀ f, h₂ (x, f) = h' (x, f) := fun x hx f => by
    rw [← hh₂, Heap.set_of_ptr_ne _ _ hx, Heap.set_of_ptr_ne _ _ hx]
  refine ⟨by omega, fun x hx f => ?_, ?_, leaf, ?_, hleaf.frame ?_⟩
  · rw [hother x (Ptr.Fresh.ne (by simp) hx), hold x hx]
  · rw [← hh₂, Heap.set_of_field_ne _ _ (by simp), Heap.set_self]
  · rw [← hh₂, Heap.set_self]
  · rintro x rfl
    exact ⟨rfl, hother _ (serial_ne (by omega))⟩

theorem enters_tagged {lo : Nat} (hT : HasHead T hd) (he : EntersNode next t (ofs + 4) T) :
    Enters next t ofs (.tagged lo T) := by
  rintro s n h ctx ⟨p, hpast, hr⟩ rfl
  obtain ⟨p', hp', hs, v, hhead⟩ := hT.denotes hr
  obtain rfl : p = p' := plain_inj.mp (Option.some.inj hp')
  simp only [updateCow, hpast, Prog.wp_bind, Prog.wp_load, hhead, Option.some.injEq,
    exists_eq_left', ← hT.pfxOfs]
  by_cases hmis : ptrPfxMatch lo T.pfxOfs ctx.key < 4
  · have hnot : splitsTagged ctx.key (.tagged lo T) ctx.keyOfs false = false := by
      rw [splitsTagged, if_pos hmis]
    rw [cowUpdate_of_not hnot, updateInplace, if_pos hmis]
    simp only [if_pos hmis, Prog.wp_bind, Prog.wp_pure]
    apply Prog.wp_mono (nodehForkCow_spec lo)
    rintro _ n' h' ⟨rfl, hn, hframe, hhead', leaf, hchs, hleaf⟩
    have hpar : Ptr.Fresh t s n (⟨t, s, n, .nodeh4⟩ : Address) := by simp
    refine ⟨by simp [plain, hn], ⟨rfl, hpast⟩, hframe, fun {s₁ h₁} _ hagree root => ?_⟩
    refine Runs.done rfl ?_
    rw [nodehForkInplace]
    refine denotes_node.mpr ⟨hpar.before, by simp [forkHead, newNode], ⟨ctx.sno, ?_⟩, _,
      (hagree _ (.inl hpar) _).trans hchs, related_pairUp ?_ ?_ _ _⟩
    · rw [hagree _ (.inl hpar), hhead']
    · refine hr.frame fun x hx => ⟨hx.succ, fun f => ?_⟩
      rw [hagree x (.inr hx), hframe x (hx.not_fresh s n)]
    · refine hleaf.frame ?_
      rintro x rfl
      exact ⟨Nat.lt_succ_self t, hagree _ (.inl (by simp))⟩
  · rw [cowUpdate_tagged hmis]
    simp only [if_neg hmis, Prog.wp_bind, Prog.wp_pure]
    apply Prog.wp_mono
      (he (some lo) { ctx with keyOfs := ctx.keyOfs + 4, tPast := some ⟨p, some lo⟩ } hr rfl)
    rintro ⟨q, ctx'⟩ n' h' ⟨hq, ⟨hroot, hpast'⟩, hframe, hruns⟩
    have hembed : embedPtr (plain q) lo = ⟨q, some lo⟩ := by simp [embedPtr, plain]
    rw [hembed]
    refine ⟨hq, ⟨hroot, hpast'⟩, hframe, fun {s₁ h₁} hlt hagree root => ?_⟩
    have hold : extractPtr ctx'.tPast = some (plain p) := by
      rw [hpast']
      rfl
    have hruns' := hruns hlt hagree root
    rw [← hold] at hruns'
    rw [Runs, Option.map_map]
    exact hruns'.imp fun T' ctx'' h'' hroot' hdenotes hframe' =>
      ⟨hroot', denotes_tagged.mpr ⟨rfl, hdenotes⟩, hframe'⟩

/-- The handlers compute `cowUpdate` from any well-formed tree. -/
theorem enters (hlt : ∀ s c, s < next s c) (w : Wf ofs T) : Enters next t ofs T := by
  have hboth : Enters next t ofs T ∧ ∀ hd, HasHead T hd → EntersNode next t ofs T := by
    induction w with
    | null => exact ⟨enters_null, fun hd hT => by cases hT⟩
    | @leaf ofs hd val =>
        have hnode : EntersNode next t ofs (.leaf hd val) := entersNode_leaf val
        exact ⟨hnode.enters (.leaf hd val), fun _ _ => hnode⟩
    | @node ofs hd chs pfxOfs aligned len_le head full live children ih =>
        have hnode : EntersNode next t ofs (.node hd chs) :=
          entersNode_node hlt (.node pfxOfs aligned len_le head full live children)
            fun c hc => (ih c hc).1
        exact ⟨hnode.enters (.node hd chs), fun _ _ => hnode⟩
    | tagged half ofs_le lo_lt pfxOfs child ih =>
        obtain ⟨hd, hT⟩ := hasHead_of_pfxOfs pfxOfs
        exact ⟨enters_tagged hT (ih.2 hd hT), fun hd hT => by cases hT⟩
  exact hboth.1

end Run

section Updates

variable {t : Nat} {h : NodeHeap} {r : Option NodePtr} {T : Tree}

def next (s : Nat) (_ : Context) : Nat := s + 1

/-- One update from `handle_init` until DONE, or until it faults. -/
theorem update_goes (key val : Nat) (w : Wf 0 T) (hr : Denotes (Ptr.Before t) h r T) :
    handlers.Goes next t 0 (start t key val r) h
    ((cowUpdate key val T 0 false).map (fun T' ctx h' =>
      Denotes (Ptr.Before (t + 1)) h' ctx.root T' ∧ h.Keeps t h')) := by
  have hplain : extractPtr r = r := by
    by_cases hne : T = .null
    · obtain rfl : r = none := by
        rw [hne] at hr
        exact hr
      rfl
    · obtain ⟨c, rfl⟩ := plain_of_wf w (Nat.dvd_zero 8) hne hr
      rfl
  apply Handlers.Goes.step rfl
  change (handleInit (start t key val r)).wp t 0 0 h _
  rw [handleInit, Prog.wp_bind]
  apply Prog.wp_mono
    (enters (fun s _ => Nat.lt_succ_self s) w { start t key val r with keyOfs := 0 } hr rfl)
  rintro ⟨tp, ctx⟩ n' h' ⟨-, ⟨-, hpast⟩, hframe, hruns⟩
  have hruns' := hruns (Nat.lt_succ_self 0) (fun _ _ _ => rfl) (some tp)
  have hctx : extractPtr ctx.tPast = ctx.tPast := by
    rw [hpast]
    exact hplain
  simp only [hctx] at hruns'
  rw [Prog.wp_pure]
  refine hruns'.imp fun T' ctx' h'' hroot hdenotes hframe' => ⟨hroot ▸ hdenotes, fun x hx f => ?_⟩
  rw [hframe' x (hx.not_fresh 0 0), hframe x (hx.not_fresh 0 0)]

def EndsAll (Q : Option NodePtr → NodeHeap → Prop) :
    Nat → Option NodePtr → NodeHeap → List (Nat × Nat) → Prop
  | _, root, h, [] => Q root h
  | t, root, h, (key, val) :: us =>
      handlers.Ends next t 0 (start t key val root) h
        (fun ctx h' => EndsAll Q (t + 1) ctx.root h' us)

/-- No update of a run splits a NODE16 below a tagged pointer. -/
def Clean : List (Nat × Nat) → Tree → Prop
  | [], _ => True
  | u :: us, T => splitsTagged u.1 T 0 false = false ∧ Clean us (updateInplace u.1 u.2 T 0)

def HoldsTree (t : Nat) (h : NodeHeap) (P : Tree → Prop) (root : Option NodePtr) (h' : NodeHeap) :
    Prop :=
  h.Keeps t h' ∧ ∃ t' T', Denotes (Ptr.Before t') h' root T' ∧ P T'

/-- A run of updates in memory ends exactly if it is clean, and then has computed the updates in place. -/
theorem endsAll_clean_iff (P : Tree → Prop) (us : List (Nat × Nat)) (w : Wf 0 T) (hr : Denotes (Ptr.Before t) h r T) :
    EndsAll (HoldsTree t h P) t r h us ↔ Clean us T ∧ P (inplaceAll us T) := by
  have hrun : ∀ {t₀ : Nat} {h₀ : NodeHeap}, t₀ ≤ t → h₀.Keeps t₀ h →
      (EndsAll (HoldsTree t₀ h₀ P) t r h us ↔ Clean us T ∧ P (inplaceAll us T)) := by
    intro t₀ h₀ hle hkeeps
    induction us generalizing t h r T with
    | nil =>
        simp only [EndsAll, HoldsTree, Clean, inplaceAll, List.foldl_nil, true_and]
        constructor
        · rintro ⟨-, t', T', hden, hP⟩
          exact hr.unique hden ▸ hP
        · exact fun hP => ⟨hkeeps, t, T, hr, hP⟩
    | cons u us ih =>
        obtain ⟨key, val⟩ := u
        have hgoes := update_goes key val w hr
        cases hsplit : splitsTagged key T 0 false with
        | true =>
            rw [cowUpdate_of_splits hsplit] at hgoes
            constructor
            · exact fun hends => absurd hends (hgoes _)
            · rintro ⟨⟨hnot, -⟩, -⟩
              exact absurd hsplit (by simp [hnot])
        | false =>
            rw [cowUpdate_of_not hsplit] at hgoes
            have hends := Handlers.goes_some.mp hgoes
            have hw : Wf 0 (updateInplace key val T 0) :=
              (updateInplace_updates w (Nat.dvd_zero 4) (Nat.zero_le 64) key val).wf
            have hnext : ∀ {h' : NodeHeap}, h.Keeps t h' → h₀.Keeps t₀ h' := fun hk x hx f =>
              (hk x (Nat.lt_of_lt_of_le hx hle) f).trans (hkeeps x hx f)
            have hclean : Clean ((key, val) :: us) T ∧ P (inplaceAll ((key, val) :: us) T) ↔
                Clean us (updateInplace key val T 0) ∧
                  P (inplaceAll us (updateInplace key val T 0)) := by
              simp only [Clean, hsplit, true_and]
              rfl
            rw [hclean]
            constructor
            · intro hall
              obtain ⟨fuel, res, -, ⟨hden, hk⟩, hrest⟩ := hends.and hall
              exact (ih hw hden (Nat.le_succ_of_le hle) (hnext hk)).mp hrest
            · intro hP
              apply hends.mono
              rintro ctx h' ⟨hden, hk⟩
              exact (ih hw hden (Nat.le_succ_of_le hle) (hnext hk)).mpr hP
  exact hrun (le_refl t) (Heap.Keeps.refl t h)

theorem endsAll_clean_iff_sample :
    EndsAll (HoldsTree 1 (fun _ => none) (fun T => find 7 T = some 3)) 1 none (fun _ => none)
      [(7, 1), (2 ^ 40, 2), (7, 3)] :=
  (endsAll_clean_iff _ _ .null rfl).mpr ⟨⟨by decide, by decide, by decide, trivial⟩, by decide⟩

end Updates

end Contrees.Trees.Aert.Cow
