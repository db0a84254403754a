import Contrees.Trees.Betree
import Contrees.Trees.BnodeUpdate

namespace Contrees.Trees.Betree

open Library Library.Memory Library.SearchTree Conctrl Bnode

section Lower

variable {t s n : Nat} {h : NodeHeap Ann} {next : Nat → Context → Nat}

def below (ctx : Context) (low : Lower Ann) : Context :=
  { ctx with
    op := match low.phase with
      | .down => .searchLower
      | .split => .searchSplit
      | .done => .done
    tCur := some low.tCur
    tPast := some low.tPast
    splitIdx := low.splitIdx }

theorem updateLowerCow_exec {ctx : Context} (low : Lower Ann) (hcur : ctx.tCur = some low.tCur)
    (hidx : ctx.splitIdx = low.splitIdx) : (updateLowerCow ctx).exec t s n h =
      ((descend kind ctx.sno ctx.key ctx.val low.tCur).exec t s n h).map
        (fun r => (below ctx (low.next r.1.1 r.1.2), r.2)) := by
  simp only [updateLowerCow, hcur, Prog.exec_bind, Prog.exec_check, Option.map_some,
    Option.bind_some]
  cases (descend kind ctx.sno ctx.key ctx.val low.tCur).exec t s n h with
  | none => rfl
  | some r =>
      obtain ⟨⟨tPast, d⟩, n', h'⟩ := r
      cases d <;> simp [below, Lower.next, hidx]

theorem handle_below (ctx : Context) (low : Lower Ann) (s : Nat) (h : NodeHeap Ann)
    (hlow : (lower kind ctx.sno ctx.key ctx.val).done low = false) :
    (interface.handle (below ctx low)).exec t s 0 h =
      ((lower kind ctx.sno ctx.key ctx.val).handle low |>.exec t s 0 h).map
        (fun r => (below ctx r.1, r.2)) := by
  obtain ⟨phase, tCur, tPast, splitIdx⟩ := low
  cases phase with
  | done => simp [lower] at hlow
  | down =>
      simp only [interface, below, lower, handleLower, handleDown, Prog.exec_bind, Prog.exec_check,
        Option.map_some, Option.bind_some]
      cases (copych tCur tPast).exec t s 0 h with
      | none => rfl
      | some r =>
          simp only [Option.bind_some]
          rw [updateLowerCow_exec ⟨.down, tCur, tPast, splitIdx⟩ rfl rfl]
          cases (descend kind ctx.sno ctx.key ctx.val tCur).exec t s r.2.1 r.2.2 <;> rfl
  | split =>
      simp only [interface, below, lower, handleSplit, Bnode.handleSplit, Prog.exec_bind,
        Prog.exec_check, Option.map_some, Option.bind_some]
      cases (enterHalf ctx.key tCur tPast splitIdx).exec t s 0 h with
      | none => rfl
      | some r =>
          simp only [Option.bind_some]
          rw [updateLowerCow_exec ⟨.split, r.1, tPast, splitIdx⟩ rfl rfl]
          cases (descend kind ctx.sno ctx.key ctx.val r.1).exec t s r.2.1 r.2.2 <;> rfl

theorem done_below (ctx : Context) (low : Lower Ann) : interface.done (below ctx low) =
    (lower kind ctx.sno ctx.key ctx.val).done low := by
  obtain ⟨phase, tCur, tPast, splitIdx⟩ := low
  cases phase <;> rfl

def nextBelow (next : Nat → Context → Nat) (ctx : Context) (s : Nat) (low : Lower Ann) : Nat :=
  next s (below ctx low)

theorem updateLowerCow_ends (ctx : Context) {low : Lower Ann} {Q : NodeHeap Ann → Prop}
    (hcur : ctx.tCur = some low.tCur) (hidx : ctx.splitIdx = low.splitIdx)
    (hd : (descend kind ctx.sno ctx.key ctx.val low.tCur).wp t s n h (fun r _ h' =>
      (lower kind ctx.sno ctx.key ctx.val).Ends (nextBelow next ctx) t
        (nextBelow next ctx s (low.next r.1 r.2)) (low.next r.1 r.2) h' (fun _ h'' => Q h''))) :
    (updateLowerCow ctx).wp t s n h (fun ctx' _ h' => interface.Ends next t (next s ctx') ctx' h'
      (fun ctx'' h'' => ctx''.root = ctx.root ∧ Q h'')) := by
  obtain ⟨r, hexec, hends⟩ := hd
  refine ⟨_, by rw [updateLowerCow_exec low hcur hidx, hexec]; rfl, ?_⟩
  have hmap : interface.Ends next t _ _ _ _ := hends.map (below ctx) (done_below ctx)
    (fun _ _ => rfl) (fun low s h => handle_below ctx low s h)
  apply hmap.mono
  rintro _ h' ⟨low', rfl, hq⟩
  exact ⟨rfl, hq⟩

end Lower

section Trees

variable {key val : Nat} {T T' : NodeTree Ann}

def heightOf : NodeTree Ann → Nat
  | .leaf _ _ _ => 0
  | .node a _ _ => a.height

/-- What the handlers compute, on trees: the upper part keeps its nodes, below a
BOUNDARY node an elastic part grows on its own. -/
def cowUpdate (key val : Nat) : NodeTree Ann → Option (NodeTree Ann)
  | .leaf a ks vs =>
      some ((updateLeaf (cow kind) B key (some val) a ks vs).rooted ⟨.boundary, a.verge, 0⟩)
  | .node a ks cs =>
      if a.type = .boundary then
        cs[findch ks key]?.bind (fun c =>
          (SearchTree.insert (cow kind) B key (some val) c).map (fun u =>
            Updated.absorb a ks cs (findch ks key)
              (.one (u.rooted ⟨.lower, 0, grow (heightOf c)⟩))))
      else
        match _hc : cs[findch ks key]? with
        | none => none
        | some c =>
            (cowUpdate key val c).map (fun c' => Updated.absorb a ks cs (findch ks key) (.one c'))
  termination_by T => T.height
  decreasing_by exact Multiway.height_lt (List.mem_of_getElem? _hc)

theorem cowUpdate_child {a : Ann} {ks : List Nat} {cs : List (NodeTree Ann)} {c : NodeTree Ann}
    (hc : cs[findch ks key]? = some c) : cowUpdate key val (.node a ks cs) =
      ((if a.type = .boundary then
          (SearchTree.insert (cow kind) B key (some val) c).map
            (Updated.rooted ⟨.lower, 0, grow (heightOf c)⟩)
        else cowUpdate key val c).map
          (fun c' => Updated.absorb a ks cs (findch ks key) (.one c'))) := by
  rw [cowUpdate]
  split
  · rw [hc, Option.bind_some, Option.map_map]
    rfl
  · split
    · simp_all
    · rename_i hc'
      obtain rfl := Option.some.inj (hc.symm.trans hc')
      rfl

def Elastic (a : Ann) : Prop := a.type = .lower ∨ a.type = .leaf

/-- A tree below its root: UPPER nodes and leaves down to BOUNDARY nodes, under
each of which every child is an elastic part, balanced on its own. `m` bounds
the size of a LEAF root. -/
inductive Layered : Nat → NodeTree Ann → Prop
  | leaf {m : Nat} {a : Ann} {ks : List Nat} {vs : List (Option Nat)} (ha : a.type = .leaf)
      (hmin : m ≤ ks.length) (hmax : ks.length ≤ 2 * B - 1) (hlen : vs.length = ks.length) :
      Layered m (.leaf a ks vs)
  | upper {m : Nat} {a : Ann} {ks : List Nat} {cs : List (NodeTree Ann)} (ha : a.type = .upper)
      (hlen : cs.length = ks.length + 1) (hcs : ∀ c ∈ cs, Layered B c) : Layered m (.node a ks cs)
  | boundary {m : Nat} {a : Ann} {ks : List Nat} {cs : List (NodeTree Ann)}
      (ha : a.type = .boundary) (hlen : cs.length = ks.length + 1)
      (hcs : ∀ c ∈ cs, c.All Elastic ∧ ∃ d, c.Shaped B B d) : Layered m (.node a ks cs)

theorem rooted_elastic {u : Updated Ann Nat (Option Nat)} {d height : Nat} (hall : u.All Elastic)
    (hs : u.Shaped B B d) : (u.rooted ⟨.lower, 0, height⟩).All Elastic ∧
      ∃ d, (u.rooted (⟨.lower, 0, height⟩ : Ann)).Shaped B B d := by
  cases u with
  | one t => exact ⟨hall, d, hs⟩
  | two p l r =>
      exact ⟨.node (.inl rfl) (by simpa using And.intro hall.1 hall.2), d + 1, two_shaped hs.1 hs.2⟩

theorem set_length {α : Type} {cs : List α} {ks : List Nat} {i : Nat} {c : α}
    (hlen : cs.length = ks.length + 1) : (cs.set i c).length = ks.length + 1 := by
  rw [List.length_set, hlen]

/-- An update of a tree with the layers of a betree ends, and keeps the layers. -/
theorem cowUpdate_layered {m : Nat} (hT : Layered m T) :
    ∃ T', cowUpdate key val T = some T' ∧ Layered m T' := by
  induction hT with
  | @leaf m a ks vs ha hmin hmax hlen =>
      have hs : (updateLeaf (cow kind) B key (some val) a ks vs).Shaped m B 0 :=
        updateLeaf_shaped B_pos ⟨hmin, hmax, hlen⟩
      have hall : (updateLeaf (cow kind) B key (some val) a ks vs).All (fun a => a.type = .leaf) :=
        updateLeaf_all (fun _ _ => rfl) rfl ha
      refine ⟨_, by rw [cowUpdate], ?_⟩
      cases hup : updateLeaf (cow kind) B key (some val) a ks vs with
      | one T' =>
          rw [hup] at hs hall
          cases T' with
          | node b ks' cs' => exact hs.elim
          | leaf b ks' vs' =>
              obtain ⟨hb⟩ := hall
              exact .leaf hb hs.1 hs.2.1 hs.2.2
      | two p l r =>
          rw [hup] at hs hall
          refine .boundary rfl rfl fun c hc => ?_
          simp only [List.mem_cons, List.not_mem_nil, or_false] at hc
          rcases hc with rfl | rfl
          exacts [⟨hall.1.imp fun _ => .inr, 0, hs.1⟩, ⟨hall.2.imp fun _ => .inr, 0, hs.2⟩]
  | @upper m a ks cs ha hlen hcs ih =>
      have hi : findch ks key < cs.length := by
        have := findch_le ks key
        omega
      obtain ⟨c', hc', hlay⟩ := ih _ (List.getElem_mem hi)
      have hne : ¬ a.type = .boundary := by simp [ha]
      rw [cowUpdate_child (List.getElem?_eq_getElem hi), if_neg hne, hc']
      refine ⟨_, rfl, .upper ha (set_length hlen) fun c hc => ?_⟩
      rcases List.mem_or_eq_of_mem_set hc with hc | rfl
      exacts [hcs c hc, hlay]
  | @boundary m a ks cs ha hlen hcs =>
      have hi : findch ks key < cs.length := by
        have := findch_le ks key
        omega
      obtain ⟨hall, d, hs⟩ := hcs _ (List.getElem_mem hi)
      obtain ⟨u, hu, hsu⟩ : ∃ u, SearchTree.insert (cow kind) B key (some val) cs[findch ks key] =
          some u ∧ u.Shaped B B d := insert_shaped B_pos hs
      have hallu : u.All Elastic :=
        insert_all (fun _ _ => .inr rfl) (.inr rfl) (fun _ _ => .inl rfl) hall hu
      rw [cowUpdate_child (List.getElem?_eq_getElem hi), if_pos ha, hu]
      refine ⟨_, rfl, .boundary ha (set_length hlen) fun c hc => ?_⟩
      rcases List.mem_or_eq_of_mem_set hc with hc | rfl
      exacts [hcs c hc, rooted_elastic hallu hsu]

theorem cowUpdate_inserted {lo hi : Option Nat} (hord : T.Ordered lo hi) (hkey : Within lo hi key)
    (hu : cowUpdate key val T = some T') :
    Inserted (cow kind) B key (some val) lo hi T.leaves (.one T') := by
  induction T using Multiway.inductionOn generalizing lo hi T' with
  | leaf a ks vs =>
      rw [cowUpdate] at hu
      obtain rfl := Option.some.inj hu
      obtain ⟨hup, htouch⟩ : Inserted (cow kind) B key (some val) lo hi _ _ :=
        insert_inserted B_pos hord hkey rfl
      exact ⟨hup.rooted _, by simpa only [Updated.leaves, Updated.leaves_rooted] using htouch⟩
  | node a ks cs ih =>
      obtain ⟨c, lo', hi', pre, post, hc⟩ := Multiway.OrderedList.focus hord hkey
      rw [cowUpdate_child hc.child] at hu
      obtain ⟨c', hc', rfl⟩ := Option.map_eq_some_iff.mp hu
      have hins : Inserted (cow kind) B key (some val) lo' hi' c.leaves (.one c') := by
        split at hc'
        · obtain ⟨u, hins, rfl⟩ := Option.map_eq_some_iff.mp hc'
          obtain ⟨hup, htouch⟩ := insert_inserted B_pos hc.ordered hc.inside hins
          exact ⟨hup.rooted _, by simpa only [Updated.leaves, Updated.leaves_rooted] using htouch⟩
        · exact ih c (List.mem_of_getElem? hc.child) hc.ordered hc.inside hc'
      exact hc.absorb hins a

end Trees

section Upper

variable {next : Nat → Context → Nat} {t s n : Nat} {h h' : NodeHeap Ann} {ctx : Context}
  {p q tp : NodePtr Ann} {a : Ann} {ks : List Nat} {cs : List (NodeTree Ann)} {T T' : NodeTree Ann}

/-- The rest of a run ends with `T'` under `tp`, and nothing older than this
point touched but `tp`. -/
def Finishes (next : Nat → Context → Nat) (t s : Nat) (ctx : Context) (h : NodeHeap Ann)
    (tp : NodePtr Ann) (T' : NodeTree Ann) : Prop :=
  interface.Ends next t s ctx h (fun ctx' h' => ctx'.root = ctx.root ∧
    Denotes kind (UpTo t) h' tp T' ∧ ∀ x, x ≠ tp → ¬ x.Fresh t s 0 → ∀ f, h' (x, f) = h (x, f))

/-- What `update_upper_cow` makes of a tree, once its caller has stored the new
node, the rest of the run updates. -/
def Enters (next : Nat → Context → Nat) (t : Nat) (T : NodeTree Ann) : Prop :=
  ∀ ⦃s n : Nat⦄ ⦃h : NodeHeap Ann⦄ ⦃p : NodePtr Ann⦄ ⦃T' : NodeTree Ann⦄ (ctx : Context),
    Denotes kind (Old t) h p T → ctx.tPast = some p → cowUpdate ctx.key ctx.val T = some T' →
    (updateUpperCow ctx).wp t s n h (fun r n' h' => r.1.Between t s n n' ∧ r.2.root = ctx.root ∧
      (∀ x, ¬ x.Fresh t s n → ∀ f, h' (x, f) = h (x, f)) ∧
      ∀ {s₁ : Nat} {h₁ : NodeHeap Ann}, s < s₁ →
        (∀ x, x.Fresh t s n ∨ Old t x → ∀ f, h₁ (x, f) = h' (x, f)) →
        ∀ root, Finishes next t s₁ { r.2 with root := root, tCur := some r.1 } h₁ r.1 T')

structure Copied (h : NodeHeap Ann) (t s : Nat) (tp p : NodePtr Ann) (a : Ann) (ks : List Nat)
    (cs : List (NodeTree Ann)) : Prop where
  node : Internal kind h tp a ks []
  owner : tp.owner = t
  passed : ¬ tp.Fresh t s 0
  past : Denotes kind (Old t) h p (.node a ks cs)

theorem Copied.copych (hcop : Copied h t s tp p a ks cs) (Q : Unit → Nat → NodeHeap Ann → Prop)
    (hQ : ∀ ps h₁, Internal kind h₁ tp a ks ps → DenotesList kind (Old t) h₁ ps cs →
      Internal kind h₁ p a ks ps → (∀ x, x ≠ tp → ∀ f, h₁ (x, f) = h (x, f)) → Q () n h₁) :
    (Bnode.copych tp p).wp t s n h Q := by
  obtain ⟨⟨ha, ⟨v, vs, hhead⟩, hchs⟩, howner, -, hpS, -, ⟨v', vs', hhead'⟩, ps, hchs', hps⟩ := hcop
  have hframe : ∀ x, x ≠ tp → ∀ f, (h.set tp Field.chs ps) (x, f) = h (x, f) :=
    fun x hx f => Heap.set_of_ptr_ne _ _ hx
  have hptp : p ≠ tp := Old.ne hpS howner
  simp only [Bnode.copych, Prog.wp_bind, Prog.wp_load, Prog.wp_store, hchs', hchs,
    Option.some.injEq,
    exists_eq_left', Option.isSome_some, true_and]
  apply hQ ps _ ⟨ha, ⟨v, vs, ?_⟩, Heap.set_self _ _ _ _⟩ ?_ ⟨ha, ⟨v', vs', ?_⟩, ?_⟩ hframe
  · rw [Heap.set_of_field_ne _ _ (by simp), hhead]
  · exact hps.frame fun x hx => ⟨hx, hframe x (Old.ne hx howner)⟩
  · rw [hframe p hptp, hhead']
  · rw [hframe p hptp, hchs']

theorem child_replaced {ps : List (NodePtr Ann)} {i : Nat} {l : NodePtr Ann} {c : NodeTree Ann}
    (hnode : Internal kind h' tp a ks (ps.set i l)) (howner : tp.owner = t)
    (hps : DenotesList kind (Old t) h ps cs)
    (hold : ∀ x, Old t x → ∀ f, h' (x, f) = h (x, f)) (hc : Denotes kind (UpTo t) h' l c) :
    Denotes kind (UpTo t) h' tp (Updated.absorb a ks cs i (.one c)) :=
  absorb_denotes (r := none) (p := 0) hnode (Nat.le_of_eq howner)
    (hps.frame fun x hx => ⟨Nat.le_of_lt hx, hold x hx⟩) hc

theorem upper_finishes {c : NodeTree Ann} (hnext : ∀ s c, s < next s c)
    (hcop : Copied h t s tp p a ks cs) (hop : ctx.op = .searchUpper) (hcur : ctx.tCur = some tp)
    (hpast : ctx.tPast = some p) (ha : a.type ≠ .boundary) (hc : cs[findch ks ctx.key]? = some c)
    (henters : Enters next t c) (hT' : cowUpdate ctx.key ctx.val (.node a ks cs) = some T') :
    Finishes next t s ctx h tp T' := by
  rw [cowUpdate_child hc, if_neg ha] at hT'
  obtain ⟨c', hc', rfl⟩ := Option.map_eq_some_iff.mp hT'
  obtain ⟨⟨op, wait, check, sno, root, tCur, tPast, key, val⟩, idx⟩ := ctx
  obtain ⟨rfl, rfl, rfl⟩ : op = .searchUpper ∧ tCur = some tp ∧ tPast = some p := ⟨hop, hcur, hpast⟩
  refine Handlers.Ends.step rfl ?_
  simp only [interface, handleUpper, Prog.wp_bind, Prog.wp_check, Option.some.injEq,
    exists_eq_left']
  apply hcop.copych
  rintro ps h₁ hnode hps ⟨-, ⟨v, vs, hhead⟩, hchs⟩ hframe₁
  obtain ⟨q, hq, hqc⟩ := hps.get hc
  simp only [Prog.wp_load, hhead, hchs, hq, Option.some.injEq, exists_eq_left']
  refine Prog.wp_mono (henters ⟨⟨_, wait, check, sno, root, some tp, some q, key, val⟩, idx⟩ hqc rfl
    hc') ?_
  rintro ⟨tp', ctx'⟩ n₂ h₂ ⟨hbetween, hroot, hframe₂, hfin⟩
  have hne : tp ≠ tp' := hbetween.fresh.ne hcop.passed
  refine Prog.wp_mono (setChild_spec (hnode.frame (hframe₂ tp hcop.passed))
    (List.getElem?_eq_some_iff.mp hq).1) ?_
  rintro ⟨⟩ n₃ h₃ ⟨-, hnode₃, hframe₃⟩
  rw [Prog.wp_pure]
  have hlt : s < next s { ctx' with tCur := some tp' } := hnext s _
  apply (hfin hlt (fun x hx => hframe₃ x ?_) ctx'.root).mono
  · rintro ctx'' h₄ ⟨hroot', hden, hframe₄⟩
    have hlater : ∀ x : NodePtr Ann, ¬ x.Fresh t s 0 → ∀ f, h₄ (x, f) = h₃ (x, f) := fun x hx =>
      hframe₄ x (hbetween.fresh.ne hx) fun hf => hx (hf.mono (.inl hlt))
    have hframe : ∀ x, x ≠ tp → ¬ x.Fresh t s 0 → ∀ f, h₄ (x, f) = h₁ (x, f) := fun x hx hf f => by
      rw [hlater x hf, hframe₃ x hx, hframe₂ x hf]
    refine ⟨hroot'.trans hroot, ?_, fun x hx hf f => by rw [hframe x hx hf, hframe₁ x hx]⟩
    exact child_replaced (hnode₃.frame (hlater tp hcop.passed)) hcop.owner hps
      (fun x hx => hframe x (Old.ne hx hcop.owner) (Old.not_fresh hx s 0)) hden
  · rcases hx with hf | ho
    exacts [fun heq => hcop.passed (heq ▸ hf), Old.ne ho hcop.owner]

structure AtBoundary (h : NodeHeap Ann) (t s : Nat) (tp q : NodePtr Ann) (a : Ann) (ks : List Nat)
    (ps : List (NodePtr Ann)) (cs : List (NodeTree Ann)) (i : Nat) (c : NodeTree Ann) : Prop where
  node : Internal kind h tp a ks ps
  owner : tp.owner = t
  passed : ¬ tp.Fresh t s 0
  children : DenotesList kind (Old t) h ps cs
  index : i < ps.length
  child : Denotes kind (Old t) h q c

def Replaces (next : Nat → Context → Nat) (t s : Nat) (root : Option (NodePtr Ann))
    (h : NodeHeap Ann) (tp : NodePtr Ann) (T' : NodeTree Ann) (ctx : Context)
    (h' : NodeHeap Ann) : Prop :=
  interface.Ends next t (next s ctx) ctx h' (fun ctx' h'' => ctx'.root = root ∧
    Denotes kind (UpTo t) h'' tp T' ∧ ∀ x, x ≠ tp → ¬ x.Fresh t s 0 → ∀ f, h'' (x, f) = h (x, f))

variable {ps : List (NodePtr Ann)} {i : Nat} {c : NodeTree Ann}

theorem AtBoundary.done {n' : Nat} {h₁ h₂ : NodeHeap Ann} {l : NodePtr Ann}
    (hat : AtBoundary h t s tp q a ks ps cs i c) (hop : ctx.op = .done)
    (hframe₁ : ∀ x : NodePtr Ann, ¬ x.Fresh t s 0 → ∀ f, h₁ (x, f) = h (x, f))
    (hnode : Internal kind h₂ tp a ks (ps.set i l))
    (hframe₂ : ∀ x, x ≠ tp → ∀ f, h₂ (x, f) = h₁ (x, f))
    (hT : Denotes kind (Ptr.Between t s 0 n') h₁ l T) :
    Replaces next t s ctx.root h tp (Updated.absorb a ks cs i (.one T)) ctx h₂ := by
  have hframe : ∀ x, x ≠ tp → ¬ x.Fresh t s 0 → ∀ f, h₂ (x, f) = h (x, f) := fun x hx hf f => by
    rw [hframe₂ x hx, hframe₁ x hf]
  refine Handlers.Ends.done (by simp [interface, hop]) ⟨rfl, ?_, hframe⟩
  refine child_replaced hnode hat.owner hat.children
    (fun x hx => hframe x (Old.ne hx hat.owner) (Old.not_fresh hx s 0)) (hT.frame fun x hx => ?_)
  exact ⟨Nat.le_of_eq hx.1, hframe₂ x (hx.fresh.ne hat.passed).symm⟩

theorem AtBoundary.finish {h₃ h₄ : NodeHeap Ann} {root : Option (NodePtr Ann)} {l : NodePtr Ann}
    (hat : AtBoundary h t s tp q a ks ps cs i c) (hnode : Internal kind h₃ tp a ks (ps.set i l))
    (hframe₃ : ∀ x, x ≠ tp → ¬ x.Fresh t s 0 → ∀ f, h₃ (x, f) = h (x, f))
    (hframe₄ : ∀ x : NodePtr Ann, ¬ x.Fresh t s 0 → ∀ f, h₄ (x, f) = h₃ (x, f))
    (hroot : ctx.root = root) (hT : Denotes kind (UpTo t) h₄ l T) :
    ctx.root = root ∧ Denotes kind (UpTo t) h₄ tp (Updated.absorb a ks cs i (.one T)) ∧
      ∀ x, x ≠ tp → ¬ x.Fresh t s 0 → ∀ f, h₄ (x, f) = h (x, f) := by
  have hframe : ∀ x, x ≠ tp → ¬ x.Fresh t s 0 → ∀ f, h₄ (x, f) = h (x, f) := fun x hx hf f => by
    rw [hframe₄ x hf, hframe₃ x hx hf]
  refine ⟨hroot, ?_, hframe⟩
  exact child_replaced (hnode.frame (hframe₄ tp hat.passed)) hat.owner hat.children
    (fun x hx => hframe x (Old.ne hx hat.owner) (Old.not_fresh hx s 0)) hT

theorem elastic_room (ctx : Context) {b : Ann} {cks : List Nat} {ccs : List (NodeTree Ann)}
    {d : Nat} {u' : Updated Ann Nat (Option Nat)} (hnext : ∀ s c, s < next s c)
    (hat : AtBoundary h t s tp q a ks ps cs i (.node b cks ccs))
    (hshaped : (Multiway.node b cks ccs).Shaped B B (d + 1)) (hroom : cks.length < 2 * B - 1)
    (hu' : insertAt (cow kind) B ctx.key (some ctx.val) (findch cks ctx.key) ccs = some u') :
    (do
      let tp' ← copyInternal kind ctx.sno q
      setChild tp i tp'
      Bnode.copych tp' q
      updateLowerCow { ctx with tPast := some q, tCur := some tp' }).wp t s 0 h (fun ctx' _ h' =>
        Replaces next t s ctx.root h tp (Updated.absorb a ks cs i
          (.one (Updated.absorb b cks ccs (findch cks ctx.key) u'))) ctx' h') := by
  obtain ⟨hqS, hb, ⟨v, vs, hqh⟩, cps, hqchs, hcps⟩ := hat.child
  simp only [Prog.wp_bind, copyInternal_wp hqh hb]
  generalize hq' : (⟨t, s, 0, b⟩ : NodePtr Ann) = q'
  have hfresh : q'.Fresh t s 0 := by subst hq'; simp
  have hne : q' ≠ tp := (hfresh.ne hat.passed).symm
  refine Prog.wp_mono
    (setChild_spec (hat.node.frame (place_frame hfresh tp hat.passed)) hat.index) ?_
  rintro ⟨⟩ n₂ h₂ ⟨rfl, hnode₂, hframe₂⟩
  have hold : ∀ x, Old t x → ∀ f, h₂ (x, f) = h (x, f) := fun x hx f => by
    rw [hframe₂ x (Old.ne hx hat.owner), place_frame hfresh x (Old.not_fresh hx s 0)]
  have hhead' : h₂ (q', Field.head) = some ⟨ctx.sno, b, cks, []⟩ := by
    rw [hframe₂ q' hne, Heap.place_self, cells_head]
  have hchs' : h₂ (q', Field.chs) = some [] := by
    rw [hframe₂ q' hne, Heap.place_self, cells_chs]
  simp only [Bnode.copych, Prog.wp_bind, Prog.wp_load, Prog.wp_store, hold q hqS, hqchs, hchs',
    Option.some.injEq, exists_eq_left', Option.isSome_some, true_and]
  have hother : ∀ x, x ≠ q' → ∀ f, (h₂.set q' Field.chs cps) (x, f) = h₂ (x, f) :=
    fun x hx f => Heap.set_of_ptr_ne _ _ hx
  have hent : Entered kind (h₂.set q' Field.chs cps) t s (0 + 1) q' b cks cps ccs d := by
    refine ⟨⟨hb, ⟨ctx.sno, [], ?_⟩, Heap.set_self _ _ _ _⟩, hfresh.1, ?_,
      hcps.frame fun x hx => ⟨hx, fun f => ?_⟩, hroom, hshaped.2.1, hshaped.2.2⟩
    · rw [Heap.set_of_field_ne _ _ (by simp), hhead']
    · subst hq'
      simp
    · rw [hother x (Old.ne hx hfresh.1), hold x hx]
  have hdesc : Ends kind (nextBelow next { ctx with tPast := some q, tCur := some q' }) t s (0 + 1)
      ctx.sno ctx.key ctx.val _ ⟨.down, q', q, ctx.splitIdx⟩ _ :=
    descends (fun s _ => hnext s _) _ hent hu'
  refine Prog.wp_mono (updateLowerCow_ends { ctx with tPast := some q, tCur := some q' } rfl rfl
    hdesc) ?_
  rintro ctx' n' h₃ hends
  apply hends.mono
  rintro ctx'' h₄ ⟨hroot, hden, hframe₄⟩
  refine hat.finish (hnode₂.frame (hother tp hne.symm)) (fun x hx hf f => ?_)
    (fun x hf => ?_) hroot hden
  · rw [hother x (hfresh.ne hf), hframe₂ x hx, place_frame hfresh x hf]
  · exact hframe₄ x (hfresh.ne hf) fun hf' => hf (hf'.mono (.inr ⟨rfl, Nat.zero_le _⟩))

theorem elastic_full (ctx : Context) (check : Bool) {b : Ann} {cks : List Nat}
    {ccs : List (NodeTree Ann)} {d v : Nat}
    {vs : List (Option Nat)} {u : Updated Ann Nat (Option Nat)}
    (hnext : ∀ s c, s < next s c) (hat : AtBoundary h t s tp q a ks ps cs i (.node b cks ccs))
    (hqh : h (q, Field.head) = some ⟨v, b, cks, vs⟩)
    (hshaped : (Multiway.node b cks ccs).Shaped B B (d + 1)) (hfull : cks.length = 2 * B - 1)
    (hu : SearchTree.insert (cow kind) B ctx.key (some ctx.val) (.node b cks ccs) = some u) :
    (do
      let (key, l, r) ← split kind ctx.sno q
      let tp' ← newRoot ctx.sno ⟨.lower, 0, grow b.height⟩ key l r
      setChild tp i tp'
      copychSplit l r q
      updateLowerCow { ctx with
        tPast := some q
        newCheckpoint := check
        tCur := some (if ctx.key < key then l else r) }).wp t s 0 h (fun ctx' _ h' =>
          Replaces next t s ctx.root h tp (Updated.absorb a ks cs i
            (.one (u.rooted ⟨.lower, 0, grow b.height⟩))) ctx' h') := by
  obtain ⟨hqS, hb, -, cps, hqchs, hcps⟩ := hat.child
  obtain ⟨sep, hsep⟩ : ∃ sep, cks[B - 1]? = some sep :=
    ⟨_, List.getElem?_eq_getElem (by have := B_pos; omega)⟩
  simp only [Prog.wp_bind, newRoot, newInternal]
  refine Prog.wp_mono (split_spec hqh hsep) ?_
  rintro _ n₁ h₁ ⟨l, r, rfl, rfl, hlf, hrf, hne, hls, hrs, hln, hrn, hl, hr, hframe₁⟩
  simp only [Prog.wp_new]
  generalize htp : (⟨t, s, 0 + 2, ⟨.lower, 0, grow b.height⟩⟩ : NodePtr Ann) = tp'
  have hfresh : tp'.Fresh t s 0 := by subst htp; simp
  have hltp : l ≠ tp' := by subst htp; rintro rfl; simp at hln
  have hrtp : r ≠ tp' := by subst htp; rintro rfl; simp at hrn
  have hne' : tp' ≠ tp := (hfresh.ne hat.passed).symm
  generalize hh₂ : h₁.place tp' (cells ⟨ctx.sno, ⟨.lower, 0, grow b.height⟩, [sep], []⟩
    (some [l, r])) = h₂
  have hframe₂ : ∀ x, x ≠ tp' → ∀ f, h₂ (x, f) = h₁ (x, f) := fun x hx f => by
    rw [← hh₂, Heap.place_of_ne _ _ _ hx]
  have hpassed : ∀ x : NodePtr Ann, ¬ x.Fresh t s 0 → ∀ f, h₂ (x, f) = h (x, f) := fun x hx f => by
    rw [hframe₂ x (hfresh.ne hx), hframe₁ x hx]
  refine Prog.wp_mono (setChild_spec (hat.node.frame (hpassed tp hat.passed)) hat.index) ?_
  rintro ⟨⟩ n₃ h₃ ⟨rfl, hnode₃, hframe₃⟩
  have hold : ∀ x, Old t x → ∀ f, h₃ (x, f) = h (x, f) := fun x hx f => by
    rw [hframe₃ x (Old.ne hx hat.owner), hpassed x (Old.not_fresh hx s 0)]
  have hltp' : l ≠ tp := (hlf.ne hat.passed).symm
  have hrtp' : r ≠ tp := (hrf.ne hat.passed).symm
  have hpass : ¬ l.Fresh t s 3 ∧ ¬ r.Fresh t s 3 := by
    constructor
    all_goals
      rintro ⟨-, hf⟩
      omega
  refine Prog.wp_mono (copychSplit_spec hshaped hfull (by rw [hold q hqS, hqchs])
    (hcps.frame fun x hx => ⟨hx, hold x hx⟩) hlf.1 hrf.1 hne
    (hl.frame fun f => by rw [hframe₃ l hltp', hframe₂ l hltp])
    (hr.frame fun f => by rw [hframe₃ r hrtp', hframe₂ r hrtp]) hpass) ?_
  rintro ⟨⟩ n₄ h₄ ⟨rfl, hframe₄, hentl, hentr⟩
  have hcur : (if ctx.key < sep then l else r) = if sep ≤ ctx.key then r else l := by
    by_cases hlt : ctx.key < sep
    · rw [if_pos hlt, if_neg hlt.not_ge]
    · rw [if_neg hlt, if_pos (not_lt.mp hlt)]
  rw [hcur]
  have hdesc := enter_half ctx.sno ⟨.split, if sep ≤ ctx.key then r else l, q, ctx.splitIdx⟩
    (descends fun s low => hnext s (below { ctx with
      tPast := some q, newCheckpoint := check, tCur := some (if sep ≤ ctx.key then r else l) } low))
    hentl hentr hne hsep hfull hu rfl
  refine Prog.wp_mono (updateLowerCow_ends { ctx with
    tPast := some q, newCheckpoint := check, tCur := some (if sep ≤ ctx.key then r else l) }
    rfl rfl hdesc) ?_
  rintro ctx' n' h₅ hends
  apply hends.mono
  rintro ctx'' h₆ ⟨hroot, hplaced, hframe₆⟩
  have hlater : ∀ x : NodePtr Ann, x ≠ l → x ≠ r → ¬ x.Fresh t s 3 →
      ∀ f, h₆ (x, f) = h₃ (x, f) := by
    intro x hxl hxr hx f
    have hx' : x ≠ if sep ≤ ctx.key then r else l := by
      split
      exacts [hxr, hxl]
    rw [hframe₆ x hx' hx, hframe₄ x hxl hxr]
  have htp₆ : ∀ f, h₆ (tp', f) = h₂ (tp', f) := fun f => by
    rw [hlater tp' hltp.symm hrtp.symm (by subst htp; simp), hframe₃ tp' hne']
  have hhead₆ : h₆ (tp', Field.head) = some ⟨ctx.sno, ⟨.lower, 0, grow b.height⟩, [sep], []⟩ := by
    rw [htp₆, ← hh₂, Heap.place_self, cells_head]
  have hchs₆ : h₆ (tp', Field.chs) = some [l, r] := by
    rw [htp₆, ← hh₂, Heap.place_self, cells_chs]
  refine hat.finish hnode₃ (fun x hx hf f => by rw [hframe₃ x hx, hpassed x hf])
    (fun x hf => ?_) hroot
    (rooted_denotes (Nat.le_of_eq hfresh.1) rfl hhead₆ hchs₆ hplaced)
  exact hlater x (hlf.ne hf) (hrf.ne hf) fun hf' => hf (hf'.mono (.inr ⟨rfl, Nat.zero_le _⟩))

theorem elastic_finishes (hnext : ∀ s c, s < next s c) (hcop : Copied h t s tp p a ks cs)
    (hop : ctx.op = .searchElastic) (hcur : ctx.tCur = some tp) (hpast : ctx.tPast = some p)
    (ha : a.type = .boundary) (hc : cs[findch ks ctx.key]? = some c)
    (hshaped : ∃ d, c.Shaped B B d)
    (hT' : cowUpdate ctx.key ctx.val (.node a ks cs) = some T') :
    Finishes next t s ctx h tp T' := by
  rw [cowUpdate_child hc, if_pos ha] at hT'
  obtain ⟨_, hmap, rfl⟩ := Option.map_eq_some_iff.mp hT'
  obtain ⟨u, hu, rfl⟩ := Option.map_eq_some_iff.mp hmap
  obtain ⟨⟨op, wait, check, sno, root, tCur, tPast, key, val⟩, idx⟩ := ctx
  obtain ⟨rfl, rfl, rfl⟩ : op = .searchElastic ∧ tCur = some tp ∧ tPast = some p :=
    ⟨hop, hcur, hpast⟩
  refine Handlers.Ends.step rfl ?_
  simp only [interface, handleElastic, Prog.wp_bind, Prog.wp_check, Option.some.injEq,
    exists_eq_left']
  apply hcop.copych
  rintro ps h₁ hnode hps ⟨-, ⟨v, vs, hhead⟩, hchs⟩ hframe₁
  obtain ⟨q, hq, hqc⟩ := hps.get hc
  have hat : AtBoundary h₁ t s tp q a ks ps cs (findch ks key) c :=
    ⟨hnode, hcop.owner, hcop.passed, hps, (List.getElem?_eq_some_iff.mp hq).1, hqc⟩
  have hreplaces : ∀ {ctx' h'},
      Replaces next t s root h₁ tp (Updated.absorb a ks cs (findch ks key)
        (.one (u.rooted ⟨.lower, 0, grow (heightOf c)⟩))) ctx' h' →
      interface.Ends next t (next s ctx') ctx' h' (fun ctx'' h'' => ctx''.root = root ∧
        Denotes kind (UpTo t) h'' tp (Updated.absorb a ks cs (findch ks key)
          (.one (u.rooted ⟨.lower, 0, grow (heightOf c)⟩))) ∧
        ∀ x, x ≠ tp → ¬ x.Fresh t s 0 → ∀ f, h'' (x, f) = h (x, f)) := by
    intro ctx' h' hrep
    apply hrep.mono
    rintro ctx'' h'' ⟨hroot, hden, hframe⟩
    exact ⟨hroot, hden, fun x hx hf f => by rw [hframe x hx hf, hframe₁ x hx]⟩
  obtain ⟨d, hshaped⟩ := hshaped
  cases c with
  | leaf b lks lvs =>
      obtain ⟨hqS, hb, ⟨v', hqh⟩, hqchs⟩ := hqc
      have hlen : lks.length = lvs.length ∧ lks.length ≤ 2 * B - 1 := by
        cases d with
        | zero => exact ⟨hshaped.2.2.symm, hshaped.2.1⟩
        | succ d => exact hshaped.elim
      obtain rfl : updateLeaf (cow kind) B key (some val) b lks lvs = u := by
        simpa [SearchTree.insert] using hu
      simp only [Prog.wp_load, Prog.wp_bind, hhead, hchs, hq, hqh, hb, Option.some.injEq,
        exists_eq_left', if_true]
      refine Prog.wp_mono (updateLeafCow_spec hqh hb hlen.1 hlen.2) ?_
      rintro ⟨sep, l, r⟩ n₂ h₂ ⟨hframe₂, hplaced⟩
      cases r with
      | none =>
          rw [Prog.wp_bind]
          refine Prog.wp_mono (setChild_spec (hnode.frame (hframe₂ tp hcop.passed)) hat.index) ?_
          rintro ⟨⟩ n₃ h₃ ⟨-, hnode₃, hframe₃⟩
          rw [Prog.wp_pure]
          have hden : Denotes kind (Ptr.Between t s 0 n₂) h₂ l
              ((updateLeaf (cow kind) B key (some val) b lks lvs).rooted ⟨.lower, 0, 1⟩) := by
            cases hup : updateLeaf (cow kind) B key (some val) b lks lvs with
            | one c' => rw [hup] at hplaced; exact hplaced
            | two p' cl cr => rw [hup] at hplaced; exact hplaced.elim
          exact hreplaces (hat.done rfl hframe₂ hnode₃ hframe₃ hden)
      | some r =>
          simp only [Prog.wp_bind]
          refine Prog.wp_mono (newRoot_spec rfl hplaced) ?_
          rintro tp' n₃ h₃ ⟨hden, hframe₃⟩
          have hframe : ∀ x : NodePtr Ann, ¬ x.Fresh t s 0 → ∀ f, h₃ (x, f) = h₁ (x, f) := by
            intro x hx f
            rw [hframe₃ x hx, hframe₂ x hx]
          refine Prog.wp_mono (setChild_spec (hnode.frame (hframe tp hcop.passed)) hat.index) ?_
          rintro ⟨⟩ n₄ h₄ ⟨-, hnode₄, hframe₄⟩
          rw [Prog.wp_pure]
          exact hreplaces (hat.done rfl hframe hnode₄ hframe₄ hden)
  | node b cks ccs =>
      obtain ⟨hqS, hb, ⟨v', vs', hqh⟩, -⟩ := hqc
      obtain ⟨d, rfl⟩ : ∃ d', d = d' + 1 := by
        cases d with
        | zero => exact hshaped.elim
        | succ d => exact ⟨d, rfl⟩
      simp only [Prog.wp_load, hhead, hchs, hq, hqh, hb, Option.some.injEq, exists_eq_left',
        Bool.false_eq_true, if_false]
      by_cases hroom : cks.length < 2 * B - 1
      · rw [if_pos hroom]
        simp only [SearchTree.insert, if_pos hroom] at hu
        obtain ⟨u', hu', rfl⟩ := Option.map_eq_some_iff.mp hu
        have hwp :=
          elastic_room ⟨⟨.searchElastic, wait, check, sno, root, some tp, some p, key, val⟩,
          idx⟩ hnext hat hshaped hroom hu'
        exact Prog.wp_mono hwp fun ctx' n' h' => hreplaces
      · rw [if_neg hroom]
        have hfull : cks.length = 2 * B - 1 := by
          have := hshaped.1
          omega
        have hwp :=
          elastic_full ⟨⟨.searchElastic, wait, check, sno, root, some tp, some p, key, val⟩,
          idx⟩ (check || decide (E < grow b.height)) hnext hat hqh hshaped hfull hu
        exact Prog.wp_mono hwp fun ctx' n' h' => hreplaces

theorem enters_leaf {vs : List (Option Nat)} (hlen : ks.length = vs.length)
    (hmax : ks.length ≤ 2 * B - 1) : Enters next t (.leaf a ks vs) := by
  intro s n h p T' ctx hp hpast hT'
  obtain ⟨hpS, ha, ⟨v, hhead⟩, hchs⟩ := hp
  rw [cowUpdate] at hT'
  obtain rfl := Option.some.inj hT'
  simp only [updateUpperCow, Prog.wp_bind, Prog.wp_check, Prog.wp_load, hpast, hhead, ha,
    Option.some.injEq, exists_eq_left', if_true]
  have hdone : ∀ {ctx' : Context} {tp : NodePtr Ann} {T' n' h'}, ctx'.op = .done →
      tp.Between t s n n' → Denotes kind (Ptr.Between t s n n') h' tp T' →
        ∀ {s₁ : Nat} {h₁ : NodeHeap Ann},
      (∀ x, x.Fresh t s n ∨ Old t x → ∀ f, h₁ (x, f) = h' (x, f)) →
        Finishes next t s₁ ctx' h₁ tp T' := by
    intro ctx' tp T' n' h' hop hbetween hden s₁ h₁ hsame
    refine Handlers.Ends.done (by simp [interface, hop]) ⟨rfl, ?_, fun x _ _ f => rfl⟩
    exact hden.frame fun x hx => ⟨Nat.le_of_eq hx.1, hsame x (.inl hx.fresh)⟩
  refine Prog.wp_mono (updateLeafCow_spec hhead ha hlen hmax) ?_
  rintro ⟨sep, l, r⟩ n₁ h₁ ⟨hframe₁, hplaced⟩
  cases r with
  | none =>
      have hden : Denotes kind (Ptr.Between t s n n₁) h₁ l
          ((updateLeaf (cow kind) B ctx.key (some ctx.val) a ks vs).rooted
            ⟨.boundary, a.verge, 0⟩) := by
        cases hup : updateLeaf (cow kind) B ctx.key (some ctx.val) a ks vs with
        | one c' => rw [hup] at hplaced; exact hplaced
        | two p' cl cr => rw [hup] at hplaced; exact hplaced.elim
      rw [Prog.wp_pure]
      exact ⟨hden.mem, rfl, hframe₁, fun _ hsame root => hdone rfl hden.mem hden hsame⟩
  | some r =>
      rw [Prog.wp_bind]
      refine Prog.wp_mono (newRoot_spec rfl hplaced) ?_
      rintro tp n₂ h₂ ⟨hden, hframe₂⟩
      rw [Prog.wp_pure]
      refine ⟨hden.mem, rfl, fun x hx f => ?_, fun _ hsame root => hdone rfl hden.mem hden hsame⟩
      rw [hframe₂ x hx, hframe₁ x hx]

theorem enters_node
    (hfin : ∀ {s₁ : Nat} {h₁ : NodeHeap Ann} {tp p : NodePtr Ann} {ctx : Context} {T'},
      Copied h₁ t s₁ tp p a ks cs →
      ctx.op = (if a.type = .boundary then .searchElastic else .searchUpper) → ctx.tCur = some tp →
      ctx.tPast = some p → cowUpdate ctx.key ctx.val (.node a ks cs) = some T' →
      Finishes next t s₁ ctx h₁ tp T') : Enters next t (.node a ks cs) := by
  intro s n h p T' ctx hp hpast hT'
  have ⟨hpS, hleaf, ⟨v, vs, hhead⟩, _⟩ := hp
  simp only [updateUpperCow, Prog.wp_bind, Prog.wp_check, Prog.wp_load, copyInternal_wp hhead hleaf,
    hpast, hhead, hleaf, Option.some.injEq, exists_eq_left', Bool.false_eq_true, if_false]
  have hfresh : (⟨t, s, n, a⟩ : NodePtr Ann).Fresh t s n := by simp
  have hcop : ∀ {s₁ : Nat} {h₁ : NodeHeap Ann}, s < s₁ → (∀ x, x.Fresh t s n ∨ Old t x → ∀ f,
      h₁ (x, f) = (h.place ⟨t, s, n, a⟩ (cells ⟨ctx.sno, a, ks, []⟩ (some []))) (x, f)) →
      Copied h₁ t s₁ ⟨t, s, n, a⟩ p a ks cs := by
    intro s₁ h₁ hlt hsame
    refine ⟨⟨hleaf, ⟨ctx.sno, [], ?_⟩, ?_⟩, rfl, ?_, hp.frame fun x hx => ⟨hx, fun f => ?_⟩⟩
    · rw [hsame _ (.inl hfresh), Heap.place_self, cells_head]
    · rw [hsame _ (.inl hfresh), Heap.place_self, cells_chs]
    · simp only [Ptr.fresh_mk]
      omega
    · rw [hsame x (.inr hx), place_frame hfresh x (Old.not_fresh hx s n)]
  have hbetween : (⟨t, s, n, a⟩ : NodePtr Ann).Between t s n (n + 1) :=
    Ptr.between_mk.mpr ⟨rfl, rfl, le_rfl, Nat.lt_succ_self n⟩
  split
  · rename_i hb
    rw [Prog.wp_pure]
    exact ⟨hbetween, rfl, place_frame hfresh, fun hlt hsame root =>
      hfin (hcop hlt hsame) (by rw [if_pos hb]) rfl rfl hT'⟩
  · rename_i hb
    rw [Prog.wp_pure]
    exact ⟨hbetween, rfl, place_frame hfresh, fun hlt hsame root =>
      hfin (hcop hlt hsame) (by rw [if_neg hb]) rfl rfl hT'⟩

/-- From every layer on, the run ends with the updated tree. -/
theorem enters {m : Nat} (hnext : ∀ s c, s < next s c) (hT : Layered m T) : Enters next t T := by
  induction hT with
  | leaf ha hmin hmax hlen => exact enters_leaf hlen.symm hmax
  | @upper m a ks cs ha hlen hcs ih =>
      have hb : a.type ≠ .boundary := by simp [ha]
      refine enters_node ?_
      intro s₁ h₁ tp p ctx T' hcop hop hcur hpast hT'
      rw [if_neg hb] at hop
      have hi : findch ks ctx.key < cs.length := by
        have := findch_le ks ctx.key
        omega
      exact upper_finishes hnext hcop hop hcur hpast hb (List.getElem?_eq_getElem hi)
        (ih _ (List.getElem_mem hi)) hT'
  | @boundary m a ks cs ha hlen hcs =>
      refine enters_node ?_
      intro s₁ h₁ tp p ctx T' hcop hop hcur hpast hT'
      rw [if_pos ha] at hop
      have hi : findch ks ctx.key < cs.length := by
        have := findch_le ks ctx.key
        omega
      exact elastic_finishes hnext hcop hop hcur hpast ha (List.getElem?_eq_getElem hi)
        (hcs _ (List.getElem_mem hi)).2 hT'

theorem update_ends {m key val : Nat} (hnext : ∀ s c, s < next s c) (hT : Layered m T)
    (hp : Denotes kind (Old t) h p T) (hT' : cowUpdate key val T = some T') :
    interface.Ends next t 0 (interface.start t key val (some p)) h (fun ctx h' =>
      ∃ r, ctx.root = some r ∧ Denotes kind (Old (t + 1)) h' r T') := by
  refine Handlers.Ends.step rfl ?_
  simp only [interface, handleInit, Prog.wp_bind]
  refine Prog.wp_mono (enters hnext hT _ hp rfl hT') ?_
  rintro ⟨tp, ctx⟩ n₁ h₁ ⟨-, -, -, hfin⟩
  rw [Prog.wp_pure]
  apply (hfin (hnext 0 _) (fun _ _ _ => rfl) (some tp)).mono
  rintro ctx' h' ⟨hroot, hden, -⟩
  exact ⟨tp, hroot, hden.frame fun x hx => ⟨Nat.lt_succ_of_le hx, fun _ => rfl⟩⟩

end Upper

end Contrees.Trees.Betree
