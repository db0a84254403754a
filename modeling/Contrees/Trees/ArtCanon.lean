import Contrees.Trees.ArtReaders

namespace Contrees.Trees.Art

open Library Library.Slots Word

variable {hd new : Head} {ofs key val d : Nat} {T c : Tree} {chs chs' : List Tree}

section Canon

/-- The children that a node has at least; the size of a NODE256 counts none. -/
def Head.held (hd : Head) : Nat := if hd.type = .node256 then 49 else hd.size

/-- No smaller type has room for as many children. -/
def least : NodeType → Nat
  | .node4 => 2
  | .node16 => 5
  | .node48 => 17
  | .node256 => 49
  | .leaf => 0

def Live (hd : Head) (chs : List Tree) (d : Nat) : Prop := d < 256 ∧ findch hd chs d ≠ .null

structure Sized (hd : Head) (chs : List Tree) : Prop where
  least_le : least hd.type ≤ hd.held
  many : Many hd.held (Live hd chs)

/-- The trees whose nodes are no larger than their children ask for. -/
inductive Canon : Tree → Prop
  | null : Canon .null
  | leaf {hd : Head} {val : Nat} : Canon (.leaf hd val)
  | node {hd : Head} {chs : List Tree} (sized : Sized hd chs) (children : ∀ c ∈ chs, Canon c) :
      Canon (.node hd chs)

theorem Canon.findch {F : Tree → Tree} (hnull : Canon (F .null)) (h : ∀ c ∈ chs, Canon (F c))
    (hd : Head) (d : Nat) : Canon (F (findch hd chs d)) := by
  rcases findch_mem hd chs d with heq | hmem
  · rw [heq]
    exact hnull
  · exact h _ hmem

theorem Sized.two (h : Sized hd chs) (hn : hd.type ≠ .leaf) :
    ∃ d e, d ≠ e ∧ Live hd chs d ∧ Live hd chs e := by
  refine h.many.two (le_trans ?_ h.least_le)
  cases htype : hd.type with
  | node4 | node16 | node48 | node256 => simp [least]
  | leaf => exact absurd htype hn

end Canon

section Children

theorem live_update (hfind : findch new chs' = Function.update (findch hd chs) d c)
    (hne : c ≠ .null) {e : Nat} (he : Live hd chs e) : Live new chs' e := by
  refine ⟨he.1, ?_⟩
  rw [hfind, Function.update_apply]
  split
  · exact hne
  · exact he.2

theorem go_canon {idx : Nat} (h : hd.Wf chs.length) (hc : Canon (.node hd chs))
    (hi : findIdx hd d = some idx) (hcanon : Canon c) (hne : c ≠ .null) :
    Canon (.node hd (setch hd chs idx c)) := by
  cases hc with
  | node sized children =>
      refine .node ⟨sized.least_le, sized.many.mono fun e => live_update (setch_spec h hi).1 hne⟩ ?_
      intro c' hc'
      rcases mem_setch h hi hc' with rfl | hold | ⟨-, rfl⟩
      exacts [hcanon, children c' hold, .null]

theorem insert_canon (hc : Canon (.node hd chs)) (hd256 : d < 256) (hi : findIdx hd d = none)
    (hfind : findch new chs' = Function.update (findch hd chs) d c)
    (hmem : ∀ c' ∈ chs', c' = c ∨ c' ∈ chs ∨ new.type = .node256 ∧ c' = .null)
    (hheld : new.held = hd.held + 1) (hleast : least new.type ≤ hd.held + 1) (hcanon : Canon c)
    (hne : c ≠ .null) : Canon (.node new chs') := by
  cases hc with
  | node sized children =>
      have habsent : ¬ Live hd chs d := fun hlive => hlive.2 (findch_eq_default hi)
      have hlive : Live new chs' d := by
        refine ⟨hd256, ?_⟩
        rwa [hfind, Function.update_self]
      refine .node ⟨hheld ▸ hleast, ?_⟩ fun c' hc' => ?_
      · rw [hheld]
        exact sized.many.insert habsent (fun e => live_update hfind hne) hlive
      · rcases hmem c' hc' with rfl | hold | ⟨-, rfl⟩
        exacts [hcanon, children c' hold, .null]

theorem append_held (hn : hd.type ≠ .node256) (hleaf : hd.type ≠ .leaf) (d : Nat) :
    (append hd d).2.held = hd.held + 1 := by
  cases htype : hd.type with
  | node4 | node16 | node48 => simp [append, grow, Head.held, htype]
  | node256 => exact absurd htype hn
  | leaf => exact absurd htype hleaf

theorem extend_held (hfull : isFull hd = true) (hleaf : hd.type ≠ .leaf) (d : Nat) :
    (append (nodeExtend hd) d).2.held = hd.held + 1 ∧
      least (append (nodeExtend hd) d).2.type ≤ hd.held + 1 := by
  cases htype : hd.type with
  | node4 | node16 | node48 =>
      simp only [isFull, htype, decide_eq_true_eq] at hfull
      simp [nodeExtend, htype, append, newNode, grow, Head.held, least, hfull]
  | node256 => simp [isFull, htype] at hfull
  | leaf => exact absurd htype hleaf

theorem newLeaf_ne (ofs key val : Nat) : newLeaf ofs key val ≠ .null := by simp [newLeaf]

theorem newLeaf_canon (ofs key val : Nat) : Canon (newLeaf ofs key val) := .leaf

theorem gap_canon (h : hd.Wf chs.length) (hc : Canon (.node hd chs)) (hd256 : d < 256)
    (hi : findIdx hd d = none) (hroom : isFull hd = false) :
    Canon (.node (append hd d).2 (insertch (append hd d).2 chs (append hd d).1
    (newLeaf ofs key val))) := by
  have hn : hd.type ≠ .node256 := by
    intro hn
    simp [findIdx, hn] at hi
  have hheld := append_held hn h.not_leaf d
  refine insert_canon hc hd256 hi (insertch_spec h hd256 hi hroom).1
    (fun c hc => or_assoc.mp (.inl (mem_insertch h hd256 hi hc))) hheld ?_
      (newLeaf_canon ofs key val)
    (newLeaf_ne ofs key val)
  cases hc with
  | node sized _ =>
      rw [append_type]
      exact sized.least_le.trans (Nat.le_succ _)

theorem full_canon (h : hd.Wf chs.length) (hc : Canon (.node hd chs)) (hd256 : d < 256)
    (hi : findIdx hd d = none) (hfull : isFull hd = true) :
    Canon (.node (append (nodeExtend hd) d).2 (setch (append (nodeExtend hd) d).2
      (copychAt (append (nodeExtend hd) d).2 hd chs (append (nodeExtend hd) d).1)
        (append (nodeExtend hd) d).1 (newLeaf ofs key val))) := by
  obtain ⟨hfind, -, hmem⟩ := extend_spec (x := newLeaf ofs key val) h hd256 hi hfull rfl
  obtain ⟨hheld, hleast⟩ := extend_held hfull h.not_leaf d
  exact insert_canon hc hd256 hi hfind hmem hheld hleast (newLeaf_canon ofs key val)
    (newLeaf_ne ofs key val)

theorem forkHead_canon {m pk0 pk1 : Nat} {x y : Tree} (hne : pk0 ≠ pk1) (h0 : pk0 < 256)
    (h1 : pk1 < 256) (hx : Canon x) (hy : Canon y) (hx' : x ≠ .null) (hy' : y ≠ .null) :
    Canon (.node (forkHead ofs m key pk0 pk1) (pairUp pk0 pk1 x y)) := by
  have hfind := (forkHead_spec ofs m key x y hne h0 h1).2
  refine .node ⟨le_refl 2, [pk0, pk1], le_refl 2, by simpa using hne, ?_⟩ fun c hc => ?_
  · intro d hd
    rcases List.mem_pair.mp hd with rfl | rfl
    · exact ⟨h0, by rwa [hfind, if_pos rfl]⟩
    · exact ⟨h1, by rwa [hfind, if_neg hne.symm, if_pos rfl]⟩
  · rcases mem_pairUp.mp hc with rfl | rfl
    exacts [hx, hy]

theorem fork_canon {x : Tree} (hle : hd.pfxOfs + hd.pfxLen ≤ 8)
    (hlt : prefixMatch hd key < hd.pfxLen) (hx : Canon x) (hx' : x ≠ .null) :
    Canon (.node (forkHead hd.pfxOfs (prefixMatch hd key) key
        (partialKey hd.pfx (hd.pfxOfs + prefixMatch hd key))
        (partialKey key (hd.pfxOfs + prefixMatch hd key)))
      (pairUp (partialKey hd.pfx (hd.pfxOfs + prefixMatch hd key))
        (partialKey key (hd.pfxOfs + prefixMatch hd key)) x
        (newLeaf (hd.pfxOfs + prefixMatch hd key + 1) key val))) := by
  have hm : hd.pfxOfs + prefixMatch hd key < 8 := by omega
  have hne : partialKey hd.pfx (hd.pfxOfs + prefixMatch hd key) ≠
      partialKey key (hd.pfxOfs + prefixMatch hd key) := by
    obtain ⟨hsame, hdif⟩ := prefixMatch_differs hle hlt
    rw [slice_digit hm, slice_digit hm, hsame] at hdif
    omega
  exact forkHead_canon hne (partialKey_lt hm) (partialKey_lt hm) hx (newLeaf_canon _ _ _) hx'
    (newLeaf_ne _ _ _)

theorem moved_canon (hc : Canon (.node hd chs)) (type : new.type = hd.type)
    (size : new.size = hd.size) (keys : new.keys = hd.keys) : Canon (.node new chs) := by
  have hheld : new.held = hd.held := by simp only [Head.held, type, size]
  have hfind : findch new chs = findch hd chs := by
    funext d
    simp only [findch, findIdx, node4Find, getch, slot, type, size, keys]
  cases hc with
  | node sized children =>
      refine .node ⟨?_, ?_⟩ children
      · rw [type, hheld]
        exact sized.least_le
      · rw [hheld]
        refine sized.many.mono fun d hd => ⟨hd.1, ?_⟩
        rw [hfind]
        exact hd.2

end Children

section Update

/-- `update_inplace` keeps the sizes of the nodes to what their children ask for. -/
theorem updateInplace_canon (h : Wf ofs T) (hc : Canon T) (hofs : ofs ≤ 8) (key val : Nat) :
    Canon (updateInplace key val T ofs) := by
  induction h with
  | null => exact .leaf
  | @leaf ofs hd old type pfxOfs ofs_le pfxLen =>
      subst pfxOfs
      rw [updateInplace]
      by_cases hmis : prefixMatch hd key < hd.pfxLen
      · rw [if_pos hmis]
        exact fork_canon (by omega) hmis .leaf (by simp)
      · rw [if_neg hmis]
        exact .leaf
  | @node ofs hd chs pfxOfs len_lt head full children ih =>
      subst pfxOfs
      have hlt : partialKey key (hd.pfxOfs + hd.pfxLen) < 256 := partialKey_lt len_lt
      rw [updateInplace_node]
      by_cases hmis : prefixMatch hd key < hd.pfxLen
      · rw [if_pos hmis]
        exact fork_canon len_lt.le hmis (moved_canon hc rfl rfl rfl) (by simp)
      · rw [if_neg hmis]
        cases hi : findIdx hd (partialKey key (hd.pfxOfs + hd.pfxLen)) with
        | some idx =>
            have hchild := Wf.findch children hd (partialKey key (hd.pfxOfs + hd.pfxLen))
            have hne := (updateInplace_updates hchild len_lt key val).ne
            rw [findch_eq_getch hi] at hne
            refine go_canon head hc hi ?_ hne
            rw [← findch_eq_getch hi]
            cases hc with
            | node _ canon =>
                exact Canon.findch
                  (F := fun c => updateInplace key val c (hd.pfxOfs + hd.pfxLen + 1)) .leaf
                  (fun c hmem => ih c hmem (canon c hmem) len_lt) hd _
        | none =>
            by_cases hfull : isFull hd = true
            · simp only [if_pos hfull]
              exact full_canon head hc hlt hi hfull
            · simp only [if_neg hfull]
              exact gap_canon head hc hlt hi (by simpa using hfull)

theorem cowUpdate_ne (key val : Nat) (T : Tree) (ofs : Nat) : cowUpdate key val T ofs ≠ .null := by
  cases T with
  | null => simp [cowUpdate, newLeaf]
  | leaf hd old =>
      rw [cowUpdate]
      split <;> simp [nodeForkTree]
  | node hd chs =>
      rw [cowUpdate_node]
      split
      · simp [nodeForkTree]
      · split <;> simp

theorem cowUpdate_canon (h : Wf ofs T) (hc : Canon T) (hofs : ofs ≤ 8) (key val : Nat) :
    Canon (cowUpdate key val T ofs) := by
  induction h with
  | null => exact .leaf
  | @leaf ofs hd old type pfxOfs ofs_le pfxLen =>
      subst pfxOfs
      rw [cowUpdate]
      by_cases hmis : prefixMatch hd key < hd.pfxLen
      · rw [if_pos hmis]
        exact fork_canon (by omega) hmis .leaf (by simp)
      · rw [if_neg hmis]
        exact .leaf
  | @node ofs hd chs pfxOfs len_lt head full children ih =>
      subst pfxOfs
      have hlt : partialKey key (hd.pfxOfs + hd.pfxLen) < 256 := partialKey_lt len_lt
      rw [cowUpdate_node]
      by_cases hmis : prefixMatch hd key < hd.pfxLen
      · rw [if_pos hmis]
        exact fork_canon len_lt.le hmis (moved_canon hc rfl rfl rfl) (by simp)
      · rw [if_neg hmis]
        cases hi : findIdx hd (partialKey key (hd.pfxOfs + hd.pfxLen)) with
        | some idx =>
            refine go_canon head hc hi ?_ (cowUpdate_ne _ _ _ _)
            rw [← findch_eq_getch hi]
            cases hc with
            | node _ canon =>
                exact Canon.findch
                  (F := fun c => cowUpdate key val c (hd.pfxOfs + hd.pfxLen + 1)) .leaf
                  (fun c hmem => ih c hmem (canon c hmem) len_lt) hd _
        | none =>
            by_cases hfull : isFull hd = true
            · simp only [if_pos hfull]
              exact full_canon head hc hlt hi hfull
            · simp only [if_neg hfull, setch_copychAt head hi]
              exact gap_canon head hc hlt hi (by simpa using hfull)

end Update

end Contrees.Trees.Art
