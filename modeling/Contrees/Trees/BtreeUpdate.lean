import Contrees.Trees.BnodeUpdate
import Contrees.Trees.Btree

namespace Contrees.Trees.Btree

open Library Library.Memory Library.SearchTree Conctrl Bnode

section Lower

variable {t s n : Nat} {h : NodeHeap NodeType}

def below (ctx : Context) (low : Lower NodeType) : Context :=
  { ctx with
    op := match low.phase with
      | .down => .searchDown
      | .split => .searchSplit
      | .done => .done
    tCur := some low.tCur
    tPast := some low.tPast
    splitIdx := low.splitIdx }

theorem updateCow_exec {ctx : Context} (low : Lower NodeType) (hcur : ctx.tCur = some low.tCur)
    (hidx : ctx.splitIdx = low.splitIdx) : (updateCow ctx).exec t s n h =
      ((descend kind ctx.sno ctx.key ctx.val low.tCur).exec t s n h).map
        (fun r => (below ctx (low.next r.1.1 r.1.2), r.2)) := by
  simp only [updateCow, hcur, Prog.exec_bind, Prog.exec_check, Option.map_some, Option.bind_some]
  cases (descend kind ctx.sno ctx.key ctx.val low.tCur).exec t s n h with
  | none => rfl
  | some r =>
      obtain ⟨⟨tPast, d⟩, n', h'⟩ := r
      cases d <;> simp [below, Lower.next, hidx]

theorem handle_below (ctx : Context) (low : Lower NodeType) (s : Nat) (h : NodeHeap NodeType)
    (hlow : (lower kind ctx.sno ctx.key ctx.val).done low = false) :
    (interface.handle (below ctx low)).exec t s 0 h =
      ((lower kind ctx.sno ctx.key ctx.val).handle low |>.exec t s 0 h).map
        (fun r => (below ctx r.1, r.2)) := by
  obtain ⟨phase, tCur, tPast, splitIdx⟩ := low
  cases phase with
  | done => simp [lower] at hlow
  | down =>
      simp only [interface, below, lower, handleSearchDown, handleDown, Prog.exec_bind,
        Prog.exec_check, Option.map_some, Option.bind_some]
      cases (copych tCur tPast).exec t s 0 h with
      | none => rfl
      | some r =>
          simp only [Option.bind_some]
          rw [updateCow_exec ⟨.down, tCur, tPast, splitIdx⟩ rfl rfl]
          cases (descend kind ctx.sno ctx.key ctx.val tCur).exec t s r.2.1 r.2.2 <;> rfl
  | split =>
      simp only [interface, below, lower, handleSearchSplit, handleSplit, Prog.exec_bind,
        Prog.exec_check, Option.map_some, Option.bind_some]
      cases (enterHalf ctx.key tCur tPast splitIdx).exec t s 0 h with
      | none => rfl
      | some r =>
          simp only [Option.bind_some]
          rw [updateCow_exec ⟨.split, r.1, tPast, splitIdx⟩ rfl rfl]
          cases (descend kind ctx.sno ctx.key ctx.val r.1).exec t s r.2.1 r.2.2 <;> rfl

theorem done_below (ctx : Context) (low : Lower NodeType) : interface.done (below ctx low) =
    (lower kind ctx.sno ctx.key ctx.val).done low := by
  obtain ⟨phase, tCur, tPast, splitIdx⟩ := low
  cases phase <;> rfl

theorem ends_below {ctx : Context} {low : Lower NodeType}
    {Q : Lower NodeType → NodeHeap NodeType → Prop}
    (he : (lower kind ctx.sno ctx.key ctx.val).Ends (fun s _ => s + 1) t s low h Q) :
    interface.Ends next t s (below ctx low) h (fun ctx' h' => ∃ low', ctx' = below ctx low' ∧ Q low' h') :=
  he.map (below ctx) (done_below ctx) (fun _ _ => rfl) (fun low s h => handle_below ctx low s h)

theorem updateCow_ends (ctx : Context) {low : Lower NodeType} {Q : NodeHeap NodeType → Prop}
    (hcur : ctx.tCur = some low.tCur) (hidx : ctx.splitIdx = low.splitIdx)
    (hd : (descend kind ctx.sno ctx.key ctx.val low.tCur).wp t s n h (fun r _ h' =>
      (lower kind ctx.sno ctx.key ctx.val).Ends (fun s _ => s + 1) t (s + 1) (low.next r.1 r.2) h'
        (fun _ h'' => Q h''))) :
    (updateCow ctx).wp t s n h (fun ctx' _ h' => interface.Ends next t (next s ctx') ctx' h'
      (fun ctx'' h'' => ctx''.root = ctx.root ∧ Q h'')) := by
  obtain ⟨r, hexec, hends⟩ := hd
  refine ⟨_, by rw [updateCow_exec low hcur hidx, hexec]; rfl, ?_⟩
  refine (ends_below hends).mono ?_
  rintro _ h' ⟨low', rfl, hq⟩
  exact ⟨rfl, hq⟩

end Lower

section Root

variable {t key val d : Nat} {h : NodeHeap NodeType} {p : NodePtr NodeType} {a : NodeType}
  {ks : List Nat} {cs : List (NodeTree NodeType)} {u : Updated NodeType Nat (Option Nat)}

theorem denotes_next {T : NodeTree NodeType} (hp : Denotes kind (UpTo t) h p T) :
    Denotes kind (Old (t + 1)) h p T :=
  hp.frame fun _ hq => ⟨Nat.lt_succ_of_le hq, fun _ => rfl⟩

theorem init_room {ctx : Context} (hp : Denotes kind (Old t) h p (.node a ks cs))
    (hshaped : (Multiway.node a ks cs).Shaped B B (d + 1)) (hroom : ks.length < 2 * B - 1)
    {u' : Updated NodeType Nat (Option Nat)}
    (hu : insertAt (cow kind) B ctx.key (some ctx.val) (findch ks ctx.key) cs = some u') :
    (initInternal ctx p).wp t 0 0 h (fun ctx' _ h' => interface.Ends next t (next 0 ctx') ctx' h'
      (fun ctx'' h'' => ∃ r, ctx''.root = some r ∧
        Denotes kind (UpTo t) h'' r (Updated.absorb a ks cs (findch ks ctx.key) u'))) := by
  obtain ⟨hpS, ha, ⟨v, vs, hhead⟩, ps, hchs, hps⟩ := hp
  simp only [initInternal, copych, Prog.wp_bind, Prog.wp_load, Prog.wp_store,
    copyInternal_wp hhead ha, hhead, Option.some.injEq, exists_eq_left', if_pos hroom]
  generalize hq' : (⟨t, 0, 0, a⟩ : NodePtr NodeType) = q
  have hfresh : q.Fresh t 0 0 := by subst hq'; simp
  have hpq : p ≠ q := hpS.ne hfresh.1
  simp only [Heap.place_of_ne _ _ _ hpq, hchs, Option.some.injEq, exists_eq_left', Heap.place_self,
    cells_chs, Option.isSome_some, true_and]
  have hframe : ∀ x, Old t x → ∀ f,
      ((h.place q (cells ⟨ctx.sno, a, ks, []⟩ (some []))).set q Field.chs ps) (x, f) = h (x, f) :=
    fun x hx f => by
      rw [Heap.set_of_ptr_ne _ _ (hx.ne hfresh.1), Heap.place_of_ne _ _ _ (hx.ne hfresh.1)]
  have hent : Entered kind ((h.place q (cells ⟨ctx.sno, a, ks, []⟩ (some []))).set q Field.chs ps)
      t 0 1 q a ks ps cs d := by
    refine ⟨⟨ha, ⟨ctx.sno, [], ?_⟩, Heap.set_self _ _ _ _⟩, hfresh.1, ?_,
      hps.frame fun x hx => ⟨hx, hframe x hx⟩, hroom, hshaped.2.1, hshaped.2.2⟩
    · rw [Heap.set_of_field_ne _ _ (by simp), Heap.place_self, cells_head]
    · subst hq'
      simp
  have hdesc : Ends kind (fun s _ => s + 1) t 0 1 ctx.sno ctx.key ctx.val _
      ⟨.down, q, p, ctx.splitIdx⟩ _ := descends (fun s _ => Nat.lt_succ_self s) _ hent hu
  refine Prog.wp_mono (updateCow_ends { ctx with root := some q, tCur := some q } rfl rfl hdesc) ?_
  rintro ctx' n' h' hends
  exact hends.mono fun ctx'' h'' hfin => ⟨q, hfin.1, hfin.2.1⟩

theorem init_full {ctx : Context} (hp : Denotes kind (Old t) h p (.node a ks cs))
    (hshaped : (Multiway.node a ks cs).Shaped B B (d + 1)) (hfull : ks.length = 2 * B - 1)
    (hu : SearchTree.insert (cow kind) B ctx.key (some ctx.val) (.node a ks cs) = some u) :
    (initInternal ctx p).wp t 0 0 h (fun ctx' _ h' => interface.Ends next t (next 0 ctx') ctx' h'
      (fun ctx'' h'' => ∃ r, ctx''.root = some r ∧
        Denotes kind (UpTo t) h'' r (u.rooted .internal))) := by
  obtain ⟨hpS, ha, ⟨v, vs, hhead⟩, ps, hchs, hps⟩ := hp
  obtain ⟨sep, hsep⟩ : ∃ sep, ks[B - 1]? = some sep :=
    ⟨_, List.getElem?_eq_getElem (by have := B_pos; omega)⟩
  have hroom : ¬ ks.length < 2 * B - 1 := by omega
  simp only [initInternal, newRoot, newInternal, Prog.wp_bind, Prog.wp_load, hhead,
    Option.some.injEq, exists_eq_left', if_neg hroom]
  refine Prog.wp_mono (split_spec hhead hsep) ?_
  rintro _ n₁ h₁ ⟨l, r, rfl, rfl, hlf, hrf, hne, hls, hrs, hln, hrn, hl, hr, hframe₁⟩
  simp only [Prog.wp_new]
  generalize htp : (⟨t, 0, 0 + 2, .internal⟩ : NodePtr NodeType) = tp
  have hltp : l ≠ tp := by subst htp; rintro rfl; simp at hln
  have hrtp : r ≠ tp := by subst htp; rintro rfl; simp at hrn
  have htpo : tp.owner = t := by subst htp; rfl
  generalize hh₂ : h₁.place tp (cells ⟨ctx.sno, .internal, [sep], []⟩ (some [l, r])) = h₂
  have hframe₂ : ∀ x, x ≠ tp → ∀ f, h₂ (x, f) = h₁ (x, f) := fun x hx f => by
    rw [← hh₂, Heap.place_of_ne _ _ _ hx]
  have hold : ∀ x, Old t x → ∀ f, h₂ (x, f) = h (x, f) := fun x hx f => by
    rw [hframe₂ x (hx.ne htpo), hframe₁ x (hx.not_fresh 0 0)]
  have hpass : ¬ l.Fresh t 0 3 ∧ ¬ r.Fresh t 0 3 := by
    constructor
    all_goals
      rintro ⟨-, hf⟩
      omega
  refine Prog.wp_mono (copychSplit_spec hshaped hfull (by rw [hold p hpS, hchs])
    (hps.frame fun x hx => ⟨hx, hold x hx⟩) hlf.1 hrf.1 hne (hl.frame (hframe₂ l hltp))
    (hr.frame (hframe₂ r hrtp)) hpass) ?_
  rintro ⟨⟩ n₃ h₃ ⟨rfl, hframe₃, hentl, hentr⟩
  have hcur : (if ctx.key < sep then l else r) = if sep ≤ ctx.key then r else l := by
    by_cases hlt : ctx.key < sep
    · rw [if_pos hlt, if_neg hlt.not_ge]
    · rw [if_neg hlt, if_pos (not_lt.mp hlt)]
  rw [hcur]
  have hdesc := enter_half ctx.sno ⟨.split, if sep ≤ ctx.key then r else l, p, ctx.splitIdx⟩
    (descends fun s _ => Nat.lt_succ_self s) hentl hentr hne hsep hfull hu rfl
  refine Prog.wp_mono (updateCow_ends { ctx with
    root := some tp, tCur := some (if sep ≤ ctx.key then r else l) } rfl rfl hdesc) ?_
  rintro ctx' n' h₄ hends
  apply hends.mono
  rintro ctx'' h₅ ⟨hroot, hplaced, hframe₅⟩
  refine ⟨tp, hroot, ?_⟩
  have hpast : ¬ tp.Fresh t 0 3 := by
    subst htp
    simp
  have hchosen : tp ≠ if sep ≤ ctx.key then r else l := by
    split
    exacts [hrtp.symm, hltp.symm]
  have htp₅ : ∀ f, h₅ (tp, f) = h₂ (tp, f) := fun f => by
    rw [hframe₅ tp hchosen hpast, hframe₃ tp hltp.symm hrtp.symm]
  have hhead₅ : h₅ (tp, Field.head) = some ⟨ctx.sno, .internal, [sep], []⟩ := by
    rw [htp₅, ← hh₂, Heap.place_self, cells_head]
  have hchs₅ : h₅ (tp, Field.chs) = some [l, r] := by
    rw [htp₅, ← hh₂, Heap.place_self, cells_chs]
  exact rooted_denotes (Nat.le_of_eq htpo) rfl hhead₅ hchs₅ hplaced

theorem update_node (hp : Denotes kind (Old t) h p (.node a ks cs))
    (hshaped : (Multiway.node a ks cs).Shaped B B (d + 1))
    (hu : SearchTree.insert (cow kind) B key (some val) (.node a ks cs) = some u) :
    interface.Ends next t 0 (interface.start t key val (some p)) h (fun ctx h' =>
      ∃ r, ctx.root = some r ∧ Denotes kind (UpTo t) h' r (u.rooted .internal)) := by
  refine Handlers.Ends.step rfl ?_
  have ⟨hpS, ha, ⟨v, vs, hhead⟩, _⟩ := hp
  simp only [interface, handleInit, Prog.wp_bind, Prog.wp_check, Prog.wp_load, hhead,
    Option.some.injEq, exists_eq_left', ha, Bool.false_eq_true, if_false]
  by_cases hroom : ks.length < 2 * B - 1
  · simp only [SearchTree.insert, if_pos hroom] at hu
    obtain ⟨u', hu', rfl⟩ := Option.map_eq_some_iff.mp hu
    exact init_room hp hshaped hroom hu'
  · exact init_full hp hshaped (by have := hshaped.1; omega) hu

variable {vs : List (Option Nat)}

/-- A LEAF root that splits is the only one `handle_init` returns from. -/
theorem update_leaf_split (hp : Denotes kind (Old t) h p (.leaf a ks vs)) (hkey : key ∉ ks)
    (hfull : ks.length = 2 * B - 1) (hlen : ks.length = vs.length) :
    interface.Ends next t 0 (interface.start t key val (some p)) h (fun ctx h' =>
      ∃ r, ctx.root = some r ∧ Denotes kind (UpTo t) h' r
        ((updateLeaf (cow kind) B key (some val) a ks vs).rooted .internal)) := by
  refine Handlers.Ends.step rfl ?_
  obtain ⟨hpS, ha, ⟨v, hhead⟩, hchs⟩ := hp
  simp only [interface, handleInit, Prog.wp_bind, Prog.wp_check, Prog.wp_load, hhead,
    Option.some.injEq, exists_eq_left', ha, if_true]
  refine Prog.wp_mono (updateLeafCow_spec hhead ha hlen (Nat.le_of_eq hfull)) ?_
  rintro ⟨sep, l, r⟩ n₁ h₁ ⟨-, hplaced⟩
  rw [updateLeaf_of_full a hkey (Nat.le_of_eq hfull.symm)] at hplaced ⊢
  cases r with
  | none => exact hplaced.elim
  | some r =>
      rw [Prog.wp_bind]
      refine Prog.wp_mono (newRoot_spec rfl hplaced) ?_
      rintro tp n₂ h₂ ⟨htp, -⟩
      rw [Prog.wp_pure]
      exact Handlers.Ends.done rfl ⟨tp, rfl, htp.frame fun x hx => ⟨Nat.le_of_eq hx.1, fun _ => rfl⟩⟩

theorem init_leaf_faults {ctx : Context} {n : Nat} {Q : Context → Nat → NodeHeap NodeType → Prop}
    (hp : Old t p) (hchs : h (p, Field.chs) = none) : ¬ (initInternal ctx p).wp t 0 n h Q := by
  intro hwp
  have hne : ∀ (m : Nat) (b : NodeType), p ≠ ⟨t, 0, m, b⟩ := fun m b => hp.ne rfl
  simp only [initInternal, copyInternal, split, newInternal, newRoot, copych, copychSplit,
    Prog.wp_bind, Prog.wp_load] at hwp
  obtain ⟨hd, -, hwp⟩ := hwp
  split at hwp
  · simp [hne, hchs] at hwp
  · simp [hne, hchs] at hwp

/-- After every other update of a LEAF root the code takes the values of the
leaf for children. -/
theorem update_leaf_stuck (hp : Denotes kind (Old t) h p (.leaf a ks vs))
    (hlen : ks.length = vs.length) (hmax : ks.length ≤ 2 * B - 1)
    (hone : ∃ T, updateLeaf (cow kind) B key (some val) a ks vs = .one T)
    (Q : Context → NodeHeap NodeType → Prop) :
    ¬ interface.Ends next t 0 (interface.start t key val (some p)) h Q := by
  intro hends
  have hwp := hends.handled rfl
  obtain ⟨hpS, ha, ⟨v, hhead⟩, hchs⟩ := hp
  obtain ⟨T, hT⟩ := hone
  simp only [interface, handleInit, Prog.wp_bind, Prog.wp_check, Prog.wp_load, hhead,
    Option.some.injEq, exists_eq_left', ha, if_true] at hwp
  obtain ⟨⟨⟨sep, l, r⟩, n₁, h₁⟩, -, ⟨hframe, hplaced⟩, hrest⟩ :=
    Prog.wp_and (updateLeafCow_spec hhead ha hlen hmax) hwp
  rw [hT] at hplaced
  have hpf : ∀ f, h₁ (p, f) = h (p, f) := hframe p (hpS.not_fresh 0 0)
  cases r with
  | some r => exact hplaced.elim
  | none => exact init_leaf_faults hpS ((hpf Field.chs).trans hchs) hrest

end Root

section Runs

variable {t key val : Nat} {h : NodeHeap NodeType} {p : NodePtr NodeType}
  {T T' : NodeTree NodeType} {us : List (Nat × Nat)}

/-- A B-tree: a LEAF root of any size, or an INTERNAL one over leaves that are
at least half full. -/
def Sound (T : NodeTree NodeType) : Prop :=
  T.Ordered none none ∧ (T.Shaped 0 B 0 ∨ ∃ d, T.Shaped B B (d + 1))

/-- What the handlers compute, on trees: `none` where they go on with a LEAF as
if it were INTERNAL. -/
def cowUpdate (key val : Nat) : NodeTree NodeType → Option (NodeTree NodeType)
  | .leaf a ks vs =>
      match updateLeaf (cow kind) B key (some val) a ks vs with
      | .one _ => none
      | .two p l r => some (.node .internal [p] [l, r])
  | .node a ks cs =>
      (SearchTree.insert (cow kind) B key (some val) (.node a ks cs)).map (Updated.rooted .internal)

def cowAll : List (Nat × Nat) → NodeTree NodeType → Option (NodeTree NodeType)
  | [], T => some T
  | (key, val) :: us, T => (cowUpdate key val T).bind (cowAll us)

theorem within_none (k : Nat) : Within none none k := ⟨by simp, by simp⟩

theorem cowUpdate_sound (hT : Sound T) (hu : cowUpdate key val T = some T') :
    (∃ d, T'.Shaped B B (d + 1)) ∧ T'.Ordered none none ∧
      Touches (cow kind) B key (some val) T.leaves T'.leaves := by
  obtain ⟨hord, hshaped⟩ := hT
  have inserted : ∀ u, SearchTree.insert (cow kind) B key (some val) T = some u →
      (u.rooted NodeType.internal).Ordered none none ∧
        Touches (cow kind) B key (some val) T.leaves (u.rooted NodeType.internal).leaves := by
    intro u hins
    obtain ⟨hu, htouch⟩ := insert_inserted B_pos hord (within_none key) hins
    exact ⟨hu.rooted _, by rwa [Updated.leaves_rooted]⟩
  cases T with
  | leaf a ks vs =>
      have hs : (Multiway.leaf a ks vs).Shaped 0 B 0 := by
        rcases hshaped with hs | ⟨d, hs⟩
        exacts [hs, hs.elim]
      have hsu : (updateLeaf (cow kind) B key (some val) a ks vs).Shaped 0 B 0 :=
        updateLeaf_shaped B_pos hs
      have hins := inserted _ rfl
      simp only [cowUpdate] at hu
      cases hup : updateLeaf (cow kind) B key (some val) a ks vs with
      | one c => simp [hup] at hu
      | two sep l r =>
          rw [hup] at hins hsu hu
          obtain rfl : Multiway.node NodeType.internal [sep] [l, r] = T' := by simpa using hu
          exact ⟨⟨0, two_shaped hsu.1 hsu.2⟩, hins⟩
  | node a ks cs =>
      obtain ⟨d, hs⟩ : ∃ d, (Multiway.node a ks cs).Shaped B B (d + 1) := by
        rcases hshaped with hs | hs
        exacts [hs.elim, hs]
      obtain ⟨u, hins, rfl⟩ := Option.map_eq_some_iff.mp hu
      obtain ⟨u', hins', hsu⟩ : ∃ u, SearchTree.insert (cow kind) B key (some val) (.node a ks cs) =
          some u ∧ u.Shaped B B (d + 1) := insert_shaped B_pos hs
      obtain rfl : u' = u := Option.some.inj (hins'.symm.trans hins)
      refine ⟨?_, inserted u' hins⟩
      cases u' with
      | one c => exact ⟨d, hsu⟩
      | two sep l r => exact ⟨d + 1, two_shaped hsu.1 hsu.2⟩

theorem update_ends (hT : Sound T) (hp : Denotes kind (Old t) h p T)
    (hu : cowUpdate key val T = some T') :
    interface.Ends next t 0 (interface.start t key val (some p)) h (fun ctx h' =>
      ∃ r, ctx.root = some r ∧ Denotes kind (Old (t + 1)) h' r T') := by
  obtain ⟨hord, hshaped⟩ := hT
  cases T with
  | leaf a ks vs =>
      obtain ⟨-, hmax, hlen⟩ : (Multiway.leaf a ks vs).Shaped 0 B 0 := by
        rcases hshaped with hs | ⟨d, hs⟩
        exacts [hs, hs.elim]
      have hkey : key ∉ ks ∧ ks.length = 2 * B - 1 := by
        by_contra hc
        have hone : ∃ c, updateLeaf (cow kind) B key (some val) a ks vs = .one c := by
          by_cases hmem : key ∈ ks
          · exact ⟨_, updateLeaf_of_mem a hord.1 hmem⟩
          · exact ⟨_, updateLeaf_of_room a hmem (lt_of_le_of_ne hmax fun hl => hc ⟨hmem, hl⟩)⟩
        obtain ⟨c, hc⟩ := hone
        simp [cowUpdate, hc] at hu
      refine (update_leaf_split hp hkey.1 hkey.2 hlen.symm).mono ?_
      rintro ctx h' ⟨r, hr, hden⟩
      refine ⟨r, hr, denotes_next ?_⟩
      rw [cowUpdate, updateLeaf_of_full a hkey.1 (Nat.le_of_eq hkey.2.symm)] at hu
      rw [updateLeaf_of_full a hkey.1 (Nat.le_of_eq hkey.2.symm)] at hden
      exact Option.some.inj hu ▸ hden
  | node a ks cs =>
      obtain ⟨d, hs⟩ : ∃ d, (Multiway.node a ks cs).Shaped B B (d + 1) := by
        rcases hshaped with hs | hs
        exacts [hs.elim, hs]
      obtain ⟨u, hins, rfl⟩ := Option.map_eq_some_iff.mp hu
      refine (update_node hp hs hins).mono ?_
      rintro ctx h' ⟨r, hr, hden⟩
      exact ⟨r, hr, denotes_next hden⟩

theorem update_faults (hT : Sound T) (hp : Denotes kind (Old t) h p T)
    (hu : cowUpdate key val T = none) (Q : Context → NodeHeap NodeType → Prop) :
    ¬ interface.Ends next t 0 (interface.start t key val (some p)) h Q := by
  obtain ⟨hord, hshaped⟩ := hT
  cases T with
  | leaf a ks vs =>
      obtain ⟨-, hmax, hlen⟩ : (Multiway.leaf a ks vs).Shaped 0 B 0 := by
        rcases hshaped with hs | ⟨d, hs⟩
        exacts [hs, hs.elim]
      refine update_leaf_stuck hp hlen.symm hmax ?_ Q
      cases hup : updateLeaf (cow kind) B key (some val) a ks vs with
      | one c => exact ⟨c, rfl⟩
      | two sep l r => simp [cowUpdate, hup] at hu
  | node a ks cs =>
      obtain ⟨d, hs⟩ : ∃ d, (Multiway.node a ks cs).Shaped B B (d + 1) := by
        rcases hshaped with hs | hs
        exacts [hs.elim, hs]
      obtain ⟨u, hins, -⟩ : ∃ u, SearchTree.insert (cow kind) B key (some val) (.node a ks cs) =
          some u ∧ u.Shaped B B (d + 1) := insert_shaped B_pos hs
      simp [cowUpdate, hins] at hu

def Holds (P : NodeTree NodeType → Prop) (root : Option (NodePtr NodeType))
    (h : NodeHeap NodeType) : Prop :=
  ∃ r t T, root = some r ∧ Denotes kind (Old t) h r T ∧ P T

/-- A sequence of updates in memory computes `cowAll`. -/
theorem endsAll_iff {P : NodeTree NodeType → Prop} (hT : Sound T) (hp : Denotes kind (Old t) h p T) :
    interface.EndsAll next (Holds P) t (some p) h us ↔ ∃ T', cowAll us T = some T' ∧ P T' := by
  induction us generalizing t h p T with
  | nil =>
      simp only [Interface.EndsAll, cowAll, Option.some.injEq, exists_eq_left']
      constructor
      · rintro ⟨r, t', T', hr, hden, hP⟩
        obtain rfl := Option.some.inj hr
        exact hp.unique hden ▸ hP
      · exact fun hP => ⟨p, t, T, rfl, hp, hP⟩
  | cons u us ih =>
      obtain ⟨key, val⟩ := u
      simp only [Interface.EndsAll, cowAll]
      cases hu : cowUpdate key val T with
      | none =>
          simp only [Option.bind_none, reduceCtorEq, false_and, exists_false, iff_false]
          exact update_faults hT hp hu _
      | some T₁ =>
          have hT₁ : Sound T₁ :=
            ⟨(cowUpdate_sound hT hu).2.1, .inr (cowUpdate_sound hT hu).1⟩
          have hends := update_ends hT hp hu
          simp only [Option.bind_some]
          constructor
          · intro hall
            obtain ⟨fuel, r, -, ⟨r', hr', hden⟩, hrest⟩ := hends.and hall
            rw [show interface.root r.1 = some r' from hr'] at hrest
            exact (ih hT₁ hden).mp hrest
          · intro hex
            refine hends.mono ?_
            rintro ctx h' ⟨r', hr', hden⟩
            rw [show interface.root ctx = some r' from hr']
            exact (ih hT₁ hden).mpr hex

end Runs

end Contrees.Trees.Btree
