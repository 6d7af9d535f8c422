/-
Families whose members come and go.

Every member has an id, remembers the id of its parent, and keeps a list
of its children. A member that dies leaves something behind, which its
parent takes care of; after that it is settled, and may be removed, and
its id given to somebody else. The children of a member that dies before
them go to a guardian.

# The tree

Parents are named by id and children by place, and the two have to agree.
`Tree` says that they do: everybody who is not settled is in one list of
children, that of a living member, which is the one it takes for its
parent. The five things that may happen in a family (`Grows`) keep it that
way (`Grows.tree`), as long as some members last: the root, which has no
parent, and the guardian. Ids come from a supply of allowed ones.
-/
import Puppy.Lib.Except

namespace Puppy.Lib

open Function List


/-- How far a member's life has got. -/
inductive Stage where
  | living
  | dead
  /-- What it has left behind has been taken care of. -/
  | settled
  deriving DecidableEq, Repr

structure Member (ι : Type) where
  id : Nat
  parent : Nat
  children : List ι
  stage : Stage
  /-- It never dies. -/
  lasting : Bool
  /-- What it leaves behind. -/
  legacy : Nat
  deriving DecidableEq, Repr

abbrev Genealogy (ι : Type) := ι → Option (Member ι)

namespace Genealogy

variable {ι : Type} {K K' : Genealogy ι} {root : ι} {guardian : Option ι}
  {allowed : Nat → Prop} {k p c : ι} {u t t' : Member ι} {C : List ι}

-- ==== the tree

/-- Everybody who is not settled is in the list of one living member, its
parent. -/
structure Tree (root : ι) (guardian : Option ι) (allowed : Nat → Prop)
    (K : Genealogy ι) : Prop where
  supply : ∀ p t, K p = some t → allowed t.id
  ids : ∀ p q a b, K p = some a → K q = some b → a.id = b.id → p = q
  listed : ∀ k u, K k = some u → ∀ p ∈ u.children, p ≠ k ∧
    ∃ t, K p = some t ∧ t.parent = u.id ∧ t.stage ≠ .settled
  nodup : ∀ k u, K k = some u → u.children.Nodup
  rooted : ∀ p t, K p = some t → t.stage ≠ .settled → p ≠ root →
    ∃ k u, K k = some u ∧ p ∈ u.children
  barren : ∀ k u, K k = some u → u.stage ≠ .living → u.children = []
  lasting : ∀ p t, K p = some t → t.lasting = true → t.stage = .living
  root : ∃ t, K root = some t ∧ t.lasting = true
  keeper : ∀ k, guardian = some k → ∃ u, K k = some u ∧ u.lasting = true
  apart : ∀ k, guardian = some k → ∀ p u, K p = some u → k ∈ u.children → u.lasting = true

/-- What becomes of a member when some leave the lists (`O`) and some get
into another one (`A`). -/
structure Regrouped (guardian : Option ι) (K' : Genealogy ι) (O A : ι → Prop) (p : ι)
    (t t' : Member ι) : Prop where
  id : t'.id = t.id
  nodup : t'.children.Nodup
  lasts : t'.lasting = true → t'.stage = .living
  origin : ∀ x ∈ t'.children, (x ∈ t.children ∧ ¬ O x ∧ ¬ A x) ∨
    (x ≠ p ∧ (guardian = some x → t'.lasting = true) ∧
      ∃ v, K' x = some v ∧ v.parent = t'.id ∧ v.stage ≠ .settled)
  stage : t'.stage ≠ .settled → A p ∨ (t.stage ≠ .settled ∧ ¬ O p)
  barren : t'.stage ≠ .living → t'.children = []
  parent : ¬ A p → t'.parent = t.parent
  stays : t.stage ≠ .settled → ¬ O p → t'.stage ≠ .settled
  lasting : t.lasting = true → t'.lasting = true
  keeps : ∀ x ∈ t.children, ¬ O x → ¬ A x → x ∈ t'.children

namespace Tree

section

variable (h : Tree root guardian allowed K)
include h

/-- A member is in one list at most. -/
theorem unique {k' : ι} {u' : Member ι} (hk : K k = some u)
    (hp : p ∈ u.children) (hk' : K k' = some u') (hp' : p ∈ u'.children) :
    k' = k := by
  obtain ⟨_, t, ht, hparent, _⟩ := h.listed k u hk p hp
  obtain ⟨_, t', ht', hparent', _⟩ := h.listed k' u' hk' p hp'
  have htt : t' = t := Option.mem_unique ht' ht
  rw [htt, hparent] at hparent'
  exact (h.ids k k' u u' hk hk' hparent').symm

/-- Whoever has children is alive. -/
theorem living_of_mem (hk : K k = some u) (hp : p ∈ u.children) : u.stage = .living := by
  by_contra hne
  rw [h.barren k u hk hne] at hp
  cases hp

/-- Nothing becomes of a member whose children all stay. -/
theorem unmoved {O A : ι → Prop} (hp : K p = some t) (hO : ¬ O p)
    (hch : ∀ x ∈ t.children, ¬ O x ∧ ¬ A x) : Regrouped guardian K' O A p t t :=
  ⟨rfl, h.nodup p t hp, h.lasting p t hp, fun x hx => .inl ⟨hx, hch x hx⟩,
    fun hst => .inr ⟨hst, hO⟩, h.barren p t hp, fun _ => rfl, fun hst _ => hst, fun hl => hl,
    fun _ hx _ _ => hx⟩

/-- A member becomes the guardian. -/
theorem appoint (hk : K k = some u) (hlasting : u.lasting = true)
    (hparent : ∀ p v, K p = some v → k ∈ v.children → v.lasting = true) :
    Tree root (some k) allowed K := by
  refine ⟨h.supply, h.ids, h.listed, h.nodup, h.rooted, h.barren, h.lasting, h.root, ?_, ?_⟩
  · intro k' hk'
    injection hk' with hk'
    exact hk' ▸ ⟨u, hk, hlasting⟩
  · intro k' hk'
    injection hk' with hk'
    exact hk' ▸ hparent

/-- Some members leave the lists, some get into another one, and nobody
else does either. -/
theorem regroup {O A : ι → Prop}
    (hback : ∀ p t', K' p = some t' → ∃ t, K p = some t ∧ Regrouped guardian K' O A p t t')
    (hforth : ∀ p t, K p = some t → t.stage ≠ .settled → ∃ t', K' p = some t')
    (hin : ∀ x, A x → ∃ k u, K' k = some u ∧ x ∈ u.children) :
    Tree root guardian allowed K' := by
  have hstay : ∀ {p t}, K p = some t → t.stage ≠ .settled → ∃ t', K' p = some t' ∧
      Regrouped guardian K' O A p t t' := by
    intro p t hp hst
    obtain ⟨t', ht'⟩ := hforth p t hp hst
    obtain ⟨v, hv, hr⟩ := hback p t' ht'
    exact ⟨t', ht', Option.mem_unique hv hp ▸ hr⟩
  have hlast : ∀ {p t}, K p = some t → t.lasting = true → ∃ t',
      K' p = some t' ∧ t'.lasting = true := by
    intro p t hp hlast
    obtain ⟨t', ht', hr⟩ := hstay hp (by rw [h.lasting p t hp hlast]; decide)
    exact ⟨t', ht', hr.lasting hlast⟩
  refine ⟨?_, ?_, ?_, ?_, ?_, ?_, ?_, ?_, ?_, ?_⟩
  · intro p t' hp
    obtain ⟨t, ht, hr⟩ := hback p t' hp
    rw [hr.id]
    exact h.supply p t ht
  · intro p q a b ha hb hid
    obtain ⟨a', ha', hra⟩ := hback p a ha
    obtain ⟨b', hb', hrb⟩ := hback q b hb
    rw [hra.id, hrb.id] at hid
    exact h.ids p q a' b' ha' hb' hid
  · intro k u' hk p hp
    obtain ⟨u, hu, hr⟩ := hback k u' hk
    rcases hr.origin p hp with ⟨hmem, hO, hA⟩ | ⟨hpk, _, hnow⟩
    · obtain ⟨hpk, t, ht, hpar, hst⟩ := h.listed k u hu p hmem
      obtain ⟨t', ht', hrp⟩ := hstay ht hst
      exact ⟨hpk, t', ht', by rw [hrp.parent hA, hpar, hr.id], hrp.stays hst hO⟩
    · exact ⟨hpk, hnow⟩
  · intro k u' hk
    obtain ⟨_, _, hr⟩ := hback k u' hk
    exact hr.nodup
  · intro p t' hp hst hroot
    by_cases hA : A p
    · exact hin p hA
    obtain ⟨t, ht, hr⟩ := hback p t' hp
    obtain ⟨hst, hO⟩ := (hr.stage hst).resolve_left hA
    obtain ⟨k, u, hu, hmem⟩ := h.rooted p t ht hst hroot
    obtain ⟨u', hu', hru⟩ := hstay hu (by rw [h.living_of_mem hu hmem]; decide)
    exact ⟨k, u', hu', hru.keeps p hmem hO hA⟩
  · intro k u' hk
    obtain ⟨_, _, hr⟩ := hback k u' hk
    exact hr.barren
  · intro p t' hp
    obtain ⟨_, _, hr⟩ := hback p t' hp
    exact hr.lasts
  · obtain ⟨t, ht, hl⟩ := h.root
    exact hlast ht hl
  · intro k hk
    obtain ⟨u, hu, hl⟩ := h.keeper k hk
    exact hlast hu hl
  · intro k hk p u' hp hmem
    obtain ⟨u, hu, hr⟩ := hback p u' hp
    rcases hr.origin k hmem with ⟨hmem, _⟩ | ⟨_, hguard, _⟩
    · exact hr.lasting (h.apart k hk p u hu hmem)
    · exact hguard hk

/-- The guardian is not among the children of a mortal member. -/
theorem guardian_not_mem (hk : guardian = some k) (hc : K c = some t)
    (hmortal : t.lasting = false) : k ∉ t.children := by
  intro hmem
  rw [h.apart k hk c t hc hmem] at hmortal
  cases hmortal

end

end Tree

variable [DecidableEq ι]

-- ==== what may happen

/-- Children go to a member `k`, whose record is `u`. -/
def handedOver (K : Genealogy ι) (k : ι) (u : Member ι) (C : List ι) : Genealogy ι := fun p =>
  if p = k then some { u with children := u.children ++ C }
  else if p ∈ C then (K p).map fun t => { t with parent := u.id }
  else K p

/-- The children of a member that dies have gone to the guardian. -/
def Orphaned (guardian : Option ι) (K : Genealogy ι) (C : List ι) (K' : Genealogy ι) : Prop :=
  (C = [] ∧ K' = K) ∨ ∃ k u, guardian = some k ∧ K k = some u ∧ K' = handedOver K k u C

inductive Grows (guardian : Option ι) (allowed : Nat → Prop)
    (K : Genealogy ι) : Genealogy ι → Prop
  | same : Grows guardian allowed K K
  | birth {parent page : ι} {u child : Member ι}
      (hparent : K parent = some u) (hliving : u.stage = .living)
      (hnew : K page = none) (hchild : child.parent = u.id)
      (hnone : child.children = []) (hyoung : child.stage = .living)
      (hallowed : allowed child.id)
      (hfresh : ∀ p t, K p = some t → t.id ≠ child.id) :
      Grows guardian allowed K (update (update K page (some child)) parent
          (some { u with children := u.children ++ [page] }))
  | death {c : ι} {t : Member ι} {K' : Genealogy ι} (legacy : Nat)
      (hc : K c = some t) (hliving : t.stage = .living)
      (hmortal : t.lasting = false) (horphans : Orphaned guardian K t.children K') :
      Grows guardian allowed K
        (update K' c (some { t with
          children := [], stage := .dead, legacy := legacy }))
  | settle {k c : ι} {u t : Member ι} {rest : List ι}
      (hk : K k = some u) (hc : K c = some t) (hdead : t.stage = .dead)
      (hmem : c ∈ u.children)
      (hrest : ∀ x, x ∈ rest ↔ x ∈ u.children ∧ x ≠ c)
      (hnodup : rest.Nodup) :
      Grows guardian allowed K (update (update K k (some { u with children := rest })) c
          (some { t with stage := .settled }))
  | removal {c : ι} {t : Member ι} (hc : K c = some t) (hsettled : t.stage = .settled) :
      Grows guardian allowed K (update K c none)

-- ==== lookups

theorem handedOver_self : handedOver K k u C k = some { u with children := u.children ++ C } :=
  if_pos rfl

theorem handedOver_mem (hk : p ≠ k) (hp : p ∈ C) (ht : K p = some t) :
    handedOver K k u C p = some { t with parent := u.id } := by
  unfold handedOver
  rw [if_neg hk, if_pos hp, ht]
  rfl

theorem handedOver_other (hk : p ≠ k) (hp : p ∉ C) : handedOver K k u C p = K p := by
  unfold handedOver
  rw [if_neg hk, if_neg hp]

theorem handedOver_eq_some (h : handedOver K k u C p = some t') :
    (p = k ∧ t' = { u with children := u.children ++ C }) ∨ (p ≠ k ∧ ∃ t parent, K p = some t ∧
        t' = { t with parent := parent }) := by
  by_cases hpk : p = k
  · rw [hpk, handedOver_self] at h
    exact .inl ⟨hpk, (Option.some.inj h).symm⟩
  refine .inr ⟨hpk, ?_⟩
  unfold handedOver at h
  rw [if_neg hpk] at h
  split at h
  · obtain ⟨t, ht, heq⟩ := Option.map_eq_some_iff.1 h
    exact ⟨t, u.id, ht, heq.symm⟩
  · exact ⟨t', t'.parent, h, rfl⟩

/-- Children may be handed over one after the other. -/
theorem handedOver_cons {child : ι} {rest : List ι} (hne : child ≠ k)
    (hchild : K child = some t) (hnot : child ∉ rest) :
    handedOver (update (update K child (some { t with parent := u.id })) k
        (some { u with children := u.children ++ [child] })) k
      { u with children := u.children ++ [child] } rest
      = handedOver K k u (child :: rest) := by
  funext p
  by_cases hpk : p = k
  · rw [hpk, handedOver_self, handedOver_self, ← append_cons]
  by_cases hpc : p = child
  · rw [hpc, handedOver_other hne hnot, update_of_ne hne,
      update_self, handedOver_mem hne mem_cons_self hchild]
  unfold handedOver
  rw [if_neg hpk, if_neg hpk, update_of_ne hpk, update_of_ne hpc]
  by_cases hrest : p ∈ rest
  · rw [if_pos hrest, if_pos (mem_cons_of_mem child hrest)]
  · rw [if_neg hrest, if_neg]
    rw [mem_cons, not_or]
    exact ⟨hpc, hrest⟩

theorem handedOver_nil (hk : K k = some u) : handedOver K k u [] = K := by
  funext p
  by_cases hpk : p = k
  · rw [hpk, handedOver_self, append_nil, hk]
  · rw [handedOver_other hpk (not_mem_nil)]

theorem present_update {x : ι} {m : Member ι} (h : p ≠ x → ∃ t, K p = some t) :
    ∃ t, update K x (some m) p = some t := by
  by_cases hpx : p = x
  · exact ⟨m, by rw [hpx, update_self]⟩
  · rw [update_of_ne hpx]
    exact h hpx

theorem handedOver_present (hp : K p = some t) : ∃ t', handedOver K k u C p = some t' := by
  by_cases hpk : p = k
  · exact ⟨_, by rw [hpk, handedOver_self]⟩
  by_cases hpC : p ∈ C
  · exact ⟨_, handedOver_mem hpk hpC hp⟩
  · exact ⟨t, by rw [handedOver_other hpk hpC, hp]⟩

/-- Nobody is lost when children are handed over. -/
theorem Orphaned.present (h : Orphaned guardian K C K') (hp : K p = some t) :
    ∃ t', K' p = some t' := by
  rcases h with ⟨_, rfl⟩ | ⟨k, u, _, _, rfl⟩
  · exact ⟨t, hp⟩
  · exact handedOver_present hp

/-- They go at the end of its list. -/
theorem Orphaned.inherits (h : Orphaned guardian K C K')
    (hguardian : guardian = some k) (hk : K k = some u) :
    ∃ u', K' k = some u' ∧ u'.children = u.children ++ C := by
  rcases h with ⟨hnone, heq⟩ | ⟨k', v, hk', hv, heq⟩
  · exact ⟨u, heq ▸ hk, by rw [hnone, append_nil]⟩
  · rw [← Option.mem_unique hguardian hk'] at hv heq
    rw [Option.mem_unique hv hk] at heq
    exact ⟨_, by rw [heq, handedOver_self], rfl⟩

/-- Nobody's life goes on while children are handed over. -/
theorem Orphaned.stage (h : Orphaned guardian K C K') (p : ι) :
    (K' p).map Member.stage = (K p).map Member.stage := by
  rcases h with ⟨_, heq⟩ | ⟨k, u, _, hk, heq⟩
  · rw [heq]
  rw [heq]
  unfold handedOver
  split
  next hpk => rw [hpk, hk]; rfl
  split
  · rw [Option.map_map]
    rfl
  · rfl

-- ==== the tree grows

namespace Tree

/-- Somebody joins who has been taken care of already, and so belongs to
nobody. -/
theorem join {page : ι} {m : Member ι} (h : Tree root guardian allowed K)
    (hnew : K page = none) (hallowed : allowed m.id)
    (hfresh : ∀ p t, K p = some t → t.id ≠ m.id) (hnone : m.children = [])
    (hsettled : m.stage = .settled) (hmortal : m.lasting = false) :
    Tree root guardian allowed (update K page (some m)) := by
  have hback : ∀ {p t}, update K page (some m) p = some t → (p = page ∧ t = m) ∨ K p = some t := by
    intro p t hp
    rcases update_eq_some hp with ⟨hpage, hp⟩ | ⟨_, hp⟩
    · exact .inl ⟨hpage, (Option.some.inj hp).symm⟩
    · exact .inr hp
  have hforth : ∀ {p t}, K p = some t → update K page (some m) p = some t := by
    intro p t hp
    rw [update_of_ne (ne_of_entry hp hnew), hp]
  refine ⟨?_, ?_, ?_, ?_, ?_, ?_, ?_, ?_, ?_, ?_⟩
  · intro p t hp
    rcases hback hp with ⟨_, rfl⟩ | hp
    · exact hallowed
    · exact h.supply p t hp
  · intro p q a b ha hb hid
    rcases hback ha with ⟨hp, heq⟩ | hp
    · rcases hback hb with ⟨hq, _⟩ | hq
      · rw [hp, hq]
      · exact absurd (heq ▸ hid).symm (hfresh q b hq)
    · rcases hback hb with ⟨_, heq⟩ | hq
      · exact absurd (heq ▸ hid) (hfresh p a hp)
      · exact h.ids p q a b hp hq hid
  · intro k u hk p hp
    rcases hback hk with ⟨_, rfl⟩ | hk
    · rw [hnone] at hp
      cases hp
    · obtain ⟨hpk, t, ht, hrest⟩ := h.listed k u hk p hp
      exact ⟨hpk, t, hforth ht, hrest⟩
  · intro k u hk
    rcases hback hk with ⟨_, rfl⟩ | hk
    · rw [hnone]
      exact nodup_nil
    · exact h.nodup k u hk
  · intro p t hp hst hroot
    rcases hback hp with ⟨_, rfl⟩ | hp
    · exact absurd hsettled hst
    · obtain ⟨k, u, hu, hmem⟩ := h.rooted p t hp hst hroot
      exact ⟨k, u, hforth hu, hmem⟩
  · intro k u hk hst
    rcases hback hk with ⟨_, rfl⟩ | hk
    · exact hnone
    · exact h.barren k u hk hst
  · intro p t hp hlast
    rcases hback hp with ⟨_, rfl⟩ | hp
    · rw [hmortal] at hlast
      cases hlast
    · exact h.lasting p t hp hlast
  · obtain ⟨t, ht, hlast⟩ := h.root
    exact ⟨t, hforth ht, hlast⟩
  · intro k hk
    obtain ⟨u, hu, hlast⟩ := h.keeper k hk
    exact ⟨u, hforth hu, hlast⟩
  · intro k hk p u hp hmem
    rcases hback hp with ⟨_, rfl⟩ | hp
    · rw [hnone] at hmem
      cases hmem
    · exact h.apart k hk p u hp hmem

theorem birth {parent page : ι} {child : Member ι}
    (h : Tree root guardian allowed K) (hparent : K parent = some u)
    (hliving : u.stage = .living) (hnew : K page = none)
    (hchild : child.parent = u.id) (hnone : child.children = [])
    (hyoung : child.stage = .living) (hallowed : allowed child.id)
    (hfresh : ∀ p t, K p = some t → t.id ≠ child.id) :
    Tree root guardian allowed (update (update K page (some child)) parent
        (some { u with children := u.children ++ [page] })) := by
  have hne : page ≠ parent := (ne_of_entry hparent hnew).symm
  have hpage : ∀ {k v}, K k = some v → page ∉ v.children := by
    intro k v hk hmem
    obtain ⟨_, t, ht, _⟩ := h.listed k v hk page hmem
    exact ne_of_entry ht hnew rfl
  have hguard : guardian ≠ some page := by
    intro hk
    obtain ⟨v, hv, _⟩ := h.keeper page hk
    exact ne_of_entry hv hnew rfl
  -- the child joins, and is then put on its parent's list
  have hjoined := @join _ _ _ _ _ _ page
    { child with stage := .settled, lasting := false } h hnew hallowed hfresh
    hnone rfl rfl
  refine hjoined.regroup (O := fun _ => False) (A := (· = page)) ?_ ?_ ?_
  · intro p t' hp
    rcases update_eq_some hp with ⟨hpp, hp⟩ | ⟨hpp, hp⟩
    · rw [hpp, ← Option.some.inj hp]
      refine ⟨u, by rw [update_of_ne hne.symm, hparent], rfl, ?_,
        h.lasting parent u hparent, ?_, fun hst => .inr ⟨hst, id⟩,
        fun hst => absurd hliving hst, fun _ => rfl, fun hst _ => hst, id,
        fun x hx _ _ => mem_append_left _ hx⟩
      · refine (h.nodup parent u hparent).append (nodup_singleton page) ?_
        intro x hx hx'
        exact hpage hparent (mem_singleton.1 hx' ▸ hx)
      intro x hx
      rcases mem_append.1 hx with hx | hx
      · exact .inl ⟨hx, id, fun heq => hpage hparent (heq ▸ hx)⟩
      rw [mem_singleton.1 hx]
      refine .inr ⟨hne, fun hk => absurd hk hguard, child, ?_, hchild, ?_⟩
      · rw [update_of_ne hne, update_self]
      · rw [hyoung]
        decide
    rcases update_eq_some hp with ⟨hpp, hp⟩ | ⟨hpp, hp⟩
    · rw [hpp, ← Option.some.inj hp]
      refine ⟨_, update_self .., rfl, ?_, fun _ => hyoung, ?_, fun _ => .inl rfl, fun _ => hnone,
        fun _ => rfl, ?_, nofun, fun x hx _ _ => hx⟩
      · rw [hnone]
        exact nodup_nil
      · rw [hnone]
        nofun
      · rw [hyoung]
        nofun
    · exact ⟨t', by rw [update_of_ne hpp, hp],
        h.unmoved hp id fun x hx => ⟨id, fun heq => hpage hp (heq ▸ hx)⟩⟩
  · intro p v hp _
    refine present_update fun _ => present_update fun hpage => ⟨v, ?_⟩
    rwa [update_of_ne hpage] at hp
  · intro x hx
    refine ⟨parent, _, update_self .., ?_⟩
    rw [hx]
    exact mem_append_right _ (mem_singleton_self page)

/-- The children of a mortal member go to the guardian. -/
theorem handOver (h : Tree root guardian allowed K) (hk : guardian = some k)
    (hu : K k = some u) (hc : K c = some t) (hmortal : t.lasting = false) :
    Tree root guardian allowed (update (handedOver K k u t.children) c
      (some { t with children := [] })) := by
  have hkC := h.guardian_not_mem hk hc hmortal
  have hlasting : u.lasting = true := by
    obtain ⟨v, hv, hlast⟩ := h.keeper k hk
    rw [Option.mem_unique hu hv]
    exact hlast
  have hck : c ≠ k := by
    intro heq
    rw [heq] at hc
    rw [Option.mem_unique hu hc, hmortal] at hlasting
    cases hlasting
  -- a child that stays where it is was in the list of somebody else
  have hstays : ∀ {x w : ι} {v : Member ι}, K w = some v → w ≠ c →
      x ∈ v.children → x ∉ t.children := by
    intro x w v hw hwc hx hxC
    exact hwc (h.unique hc hxC hw hx)
  refine h.regroup (O := fun _ => False) (A := (· ∈ t.children)) ?_ ?_ ?_
  · intro p t' hp
    rcases update_eq_some hp with ⟨hpc, hp⟩ | ⟨hpc, hp⟩
    · rw [hpc, ← Option.some.inj hp]
      exact ⟨t, hc, rfl, nodup_nil, h.lasting c t hc, nofun, fun hst => .inr ⟨hst, id⟩,
        fun _ => rfl, fun _ => rfl, fun hst _ => hst, id, fun x hx _ hxC => absurd hx hxC⟩
    by_cases hpk : p = k
    · rw [hpk, handedOver_self] at hp
      rw [hpk, ← Option.some.inj hp]
      refine ⟨u, hu, rfl, ?_, h.lasting k u hu, ?_, fun hst => .inr ⟨hst, id⟩,
        fun hst => absurd (h.lasting k u hu hlasting) hst, fun _ => rfl, fun hst _ => hst, id,
        fun x hx _ _ => mem_append_left _ hx⟩
      · exact (h.nodup k u hu).append (h.nodup c t hc)
          fun x hx => hstays hu hck.symm hx
      intro x hx
      rcases mem_append.1 hx with hx | hx
      · exact .inl ⟨hx, id, hstays hu hck.symm hx⟩
      obtain ⟨hxc, v, hv, _, hst⟩ := h.listed c t hc x hx
      have hxk : x ≠ k := fun heq => hkC (heq ▸ hx)
      exact .inr ⟨hxk, fun _ => hlasting, { v with parent := u.id },
        by rw [update_of_ne hxc, handedOver_mem hxk hx hv], rfl, hst⟩
    by_cases hpC : p ∈ t.children
    · obtain ⟨_, v, hv, _, _⟩ := h.listed c t hc p hpC
      rw [handedOver_mem hpk hpC hv] at hp
      rw [← Option.some.inj hp]
      have hsame : Regrouped guardian (update (handedOver K k u t.children) c
          (some { t with children := [] })) (fun _ => False) (· ∈ t.children) p v v :=
        h.unmoved hv id fun x hx => ⟨id, hstays hv hpc hx⟩
      exact ⟨v, hv, { hsame with parent := fun hA => absurd hpC hA }⟩
    · rw [handedOver_other hpk hpC] at hp
      exact ⟨t', hp, h.unmoved hp id fun x hx => ⟨id, hstays hp hpc hx⟩⟩
  · exact fun p v hp _ => present_update fun _ => handedOver_present hp
  · intro x hx
    exact ⟨k, _, by rw [update_of_ne hck.symm, handedOver_self],
      mem_append_right u.children hx⟩

/-- A member without children dies. -/
theorem fade (legacy : Nat) (h : Tree root guardian allowed K)
    (hc : K c = some t) (hnone : t.children = []) (hliving : t.stage = .living)
    (hmortal : t.lasting = false) :
    Tree root guardian allowed (update K c (some { t with stage := .dead, legacy := legacy })) := by
  refine h.regroup (O := fun _ => False) (A := fun _ => False) ?_
    (fun p v hp _ => present_update fun _ => ⟨v, hp⟩) (fun _ hA => hA.elim)
  intro p t' hp
  rcases update_eq_some hp with ⟨hpc, hp⟩ | ⟨_, hp⟩
  · rw [hpc, ← Option.some.inj hp]
    refine ⟨t, hc, rfl, h.nodup c t hc, ?_, fun x hx => .inl ⟨hx, id, id⟩,
      fun _ => .inr ⟨by rw [hliving]; decide, id⟩, fun _ => hnone, fun _ => rfl, nofun, id,
      fun x hx _ _ => hx⟩
    intro hlast
    cases hmortal.symm.trans hlast
  · exact ⟨t', hp, h.unmoved hp id fun _ _ => ⟨id, id⟩⟩

theorem death (legacy : Nat) (h : Tree root guardian allowed K)
    (hc : K c = some t) (hliving : t.stage = .living)
    (hmortal : t.lasting = false)
    (horphans : Orphaned guardian K t.children K') :
    Tree root guardian allowed (update K' c (some { t with
      children := [], stage := .dead, legacy := legacy })) := by
  rcases horphans with ⟨hnone, heq⟩ | ⟨k, u, hk, hu, heq⟩
  · have hfade := h.fade legacy hc hnone hliving hmortal
    rw [heq, ← hnone]
    exact hfade
  have hleft := (h.handOver hk hu hc hmortal).fade legacy (update_self ..) rfl hliving hmortal
  rw [update_idem] at hleft
  rw [heq]
  exact hleft

/-- A parent takes care of a child that has died. -/
theorem settle {rest : List ι} (h : Tree root guardian allowed K)
    (hk : K k = some u) (hc : K c = some t) (hdead : t.stage = .dead)
    (hrest : ∀ x, x ∈ rest ↔ x ∈ u.children ∧ x ≠ c) (hnodup : rest.Nodup)
    (hmem : c ∈ u.children) :
    Tree root guardian allowed (update (update K k (some { u with children := rest })) c
      (some { t with stage := .settled })) := by
  have hck : c ≠ k := (h.listed k u hk c hmem).1
  have hliving := h.living_of_mem hk hmem
  have hnone := h.barren c t hc (by rw [hdead]; decide)
  refine h.regroup (O := (· = c)) (A := fun _ => False) ?_
    (fun p v hp _ => present_update fun _ => present_update fun _ => ⟨v, hp⟩) (fun _ hA => hA.elim)
  intro p t' hp
  rcases update_eq_some hp with ⟨hpc, hp⟩ | ⟨hpc, hp⟩
  · rw [hpc, ← Option.some.inj hp]
    refine ⟨t, hc, rfl, h.nodup c t hc, ?_, ?_, fun hst => absurd rfl hst, fun _ => hnone,
      fun _ => rfl, fun _ hO => absurd rfl hO, id, fun x hx _ _ => hx⟩
    · intro hlast
      have hst := h.lasting c t hc hlast
      cases hdead.symm.trans hst
    · rw [hnone]
      nofun
  rcases update_eq_some hp with ⟨hpk, hp⟩ | ⟨hpk, hp⟩
  · rw [hpk, ← Option.some.inj hp]
    refine ⟨u, hk, rfl, hnodup, fun _ => hliving, ?_,
      fun hst => .inr ⟨hst, hck.symm⟩, fun hst => absurd hliving hst, fun _ => rfl,
      fun hst _ => hst, id, fun x hx hxc _ => (hrest x).2 ⟨hx, hxc⟩⟩
    intro x hx
    obtain ⟨hx, hxc⟩ := (hrest x).1 hx
    exact .inl ⟨hx, hxc, id⟩
  · refine ⟨t', hp, h.unmoved hp hpc fun x hx => ⟨?_, id⟩⟩
    intro heq
    exact hpk (h.unique hk hmem hp (heq ▸ hx))

/-- A settled member is removed. Nobody has it in its list. -/
theorem removal (h : Tree root guardian allowed K) (hc : K c = some t)
    (hsettled : t.stage = .settled) :
    Tree root guardian allowed (update K c none) := by
  refine h.regroup (O := fun _ => False) (A := fun _ => False) ?_ ?_ (fun _ hA => hA.elim)
  · intro p t' hp
    rcases update_eq_some hp with ⟨_, ⟨⟩⟩ | ⟨_, hp⟩
    · exact ⟨t', hp, h.unmoved hp id fun _ _ => ⟨id, id⟩⟩
  intro p v hp hst
  refine ⟨v, ?_⟩
  rw [update_of_ne, hp]
  intro heq
  rw [heq] at hp
  exact hst (Option.mem_unique hp hc ▸ hsettled)

end Tree

section

variable (hgrows : Grows guardian allowed K K')
include hgrows

/-- Whatever happens, the family stays a tree. -/
theorem Grows.tree (h : Tree root guardian allowed K) : Tree root guardian allowed K' := by
  cases hgrows with
  | same => exact h
  | birth hparent hliving hnew hchild hnone hyoung hallowed hfresh =>
    exact h.birth hparent hliving hnew hchild hnone hyoung hallowed hfresh
  | death legacy hc hliving hmortal horphans => exact h.death legacy hc hliving hmortal horphans
  | settle hk hc hdead hmem hrest hnodup => exact h.settle hk hc hdead hrest hnodup hmem
  | removal hc hsettled => exact h.removal hc hsettled

/-- How a member's life goes on: what it leaves behind is what its parent
finds. -/
def Ages (t t' : Member ι) : Prop :=
  (t'.stage = t.stage ∧ (t.stage ≠ .living → t'.legacy = t.legacy)) ∨
    (t.stage = .living ∧ t'.stage = .dead) ∨
    (t.stage = .dead ∧ t'.stage = .settled ∧ t'.legacy = t.legacy)

/-- Somebody is young, or has aged. Who is alive has kept its children, but
for those that are not. -/
def Aged (K K' : Genealogy ι) (p : ι) (t' : Member ι) : Prop :=
  (K p = none ∧ t'.stage = .living) ∨ ∃ t, K p = some t ∧ Ages t t' ∧
    t'.lasting = t.lasting ∧ (t'.stage = .living → ∀ x ∈ t.children,
      x ∈ t'.children ∨ ∀ m, K' x = some m → m.stage ≠ .living)

theorem Grows.back (hp : K' p = some t') : Aged K K' p t' := by
  have hkept : ∀ {v : Member ι}, K p = some v → t'.stage = v.stage →
      t'.legacy = v.legacy → t'.lasting = v.lasting →
      (∀ x ∈ v.children, x ∈ t'.children ∨
        ∀ m, K' x = some m → m.stage ≠ .living) → Aged K K' p t' :=
    fun hv hst hleg hlast hch => .inr ⟨_, hv, .inl ⟨hst, fun _ => hleg⟩, hlast, fun _ => hch⟩
  have hsame : K p = some t' → Aged K K' p t' :=
    fun hv => hkept hv rfl rfl rfl (fun x hx => .inl hx)
  cases hgrows with
  | same => exact hsame hp
  | @birth parent page u child hparent _ hnew _ _ hyoung _ _ =>
    rcases update_eq_some hp with ⟨hpp, hp⟩ | ⟨_, hp⟩
    · have hp := Option.some.inj hp
      refine hkept (hpp ▸ hparent) ?_ ?_ ?_ ?_ <;> rw [← hp]
      exact fun x hx => .inl (mem_append_left _ hx)
    rcases update_eq_some hp with ⟨rfl, ⟨⟩⟩ | ⟨_, hp⟩
    · exact .inl ⟨hnew, hyoung⟩
    · exact hsame hp
  | @death c t K₁ legacy hc hliving _ horphans =>
    rcases update_eq_some hp with ⟨rfl, ⟨⟩⟩ | ⟨_, hp⟩
    · exact .inr ⟨t, hc, .inr (.inl ⟨hliving, rfl⟩), rfl, nofun⟩
    rcases horphans with ⟨_, heq⟩ | ⟨k, u, _, hu, heq⟩
    · rw [heq] at hp
      exact hsame hp
    rw [heq] at hp
    rcases handedOver_eq_some hp with ⟨hpk, hp⟩ | ⟨_, v, _, hv, hp⟩
    · refine hkept (hpk ▸ hu) ?_ ?_ ?_ ?_ <;> rw [hp]
      exact fun x hx => .inl (mem_append_left _ hx)
    · refine hkept hv ?_ ?_ ?_ ?_ <;> rw [hp]
      exact fun x hx => .inl hx
  | @settle k c u t rest hk hc hdead _ hrest _ =>
    rcases update_eq_some hp with ⟨rfl, ⟨⟩⟩ | ⟨_, hp⟩
    · exact .inr ⟨t, hc, .inr (.inr ⟨hdead, rfl, rfl⟩), rfl, nofun⟩
    rcases update_eq_some hp with ⟨hpk, hp⟩ | ⟨_, hp⟩
    · have hp := Option.some.inj hp
      refine hkept (hpk ▸ hk) ?_ ?_ ?_ ?_ <;> rw [← hp]
      intro x hx
      by_cases hxc : x = c
      · refine .inr (fun m hm => ?_)
        rw [hxc, update_self] at hm
        rw [← Option.some.inj hm]
        nofun
      · exact .inl ((hrest x).2 ⟨hx, hxc⟩)
    · exact hsame hp
  | @removal c t hc _ =>
    rcases update_eq_some hp with ⟨_, ⟨⟩⟩ | ⟨_, hp⟩
    · exact hsame hp

/-- Nobody disappears but the settled ones. -/
theorem Grows.present (hp : K p = some t) (hst : t.stage ≠ .settled) : ∃ t', K' p = some t' := by
  cases hgrows with
  | same => exact ⟨t, hp⟩
  | birth => exact present_update fun _ => present_update fun _ => ⟨t, hp⟩
  | death _ _ _ _ horphans => exact present_update fun _ => horphans.present hp
  | settle => exact present_update fun _ => present_update fun _ => ⟨t, hp⟩
  | @removal c v hc hsettled =>
    refine ⟨t, ?_⟩
    rw [update_of_ne, hp]
    intro heq
    rw [heq] at hp
    exact hst (Option.mem_unique hp hc ▸ hsettled)

/-- The members that last stay. -/
theorem Grows.stays (h : Tree root guardian allowed K) (hp : K p = some t)
    (hlast : t.lasting = true) : ∃ t', K' p = some t' ∧ t'.lasting = true := by
  have hliving := h.lasting p t hp hlast
  obtain ⟨t', ht'⟩ := hgrows.present hp (by rw [hliving]; decide)
  rcases hgrows.back ht' with ⟨hnone, _⟩ | ⟨v, hv, _, hl, _⟩
  · cases hp.symm.trans hnone
  · rw [Option.mem_unique hv hp] at hl
    exact ⟨t', ht', hl.trans hlast⟩

/-- A living member keeps the children that are alive. -/
theorem Grows.keeps {u' : Member ι} (hk : K k = some u) (hmem : p ∈ u.children)
    (hk' : K' k = some u') (hu' : u'.stage = .living) (hp' : K' p = some t')
    (ht' : t'.stage = .living) : p ∈ u'.children := by
  rcases hgrows.back hk' with ⟨hnone, _⟩ | ⟨v, hv, _, _, hch⟩
  · cases hk.symm.trans hnone
  rw [Option.mem_unique hv hk] at hch
  rcases hch hu' p hmem with hin | hgone
  · exact hin
  · exact absurd ht' (hgone t' hp')

end

end Genealogy

end Puppy.Lib
