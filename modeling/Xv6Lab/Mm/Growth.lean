import Xv6Lab.Mm.Unmap

/-!
Pages are added one after the other, and all of them go back if one cannot be added:
the loops of uvmalloc and uvmcopy.
-/

namespace Xv6Lab.Mm
open Function (update update_of_ne update_self)
open Bytes (Mem load store fill write read)
variable {l : Label} {oldsz e : Nat} {bytes : Nat → UInt8}

def Adds (r n : Nat) (l : Label) : Prop := Tables r l ∨ l = .user r n

theorem Adds.among {r n u : Nat} (above : u ≤ n) (inside : Adds r n l) : Among r (u ≤ ·) l := by
  rcases inside with table | page
  · exact .inl table
  · exact .inr ⟨n, above, page⟩

section Sizes

def pagesOf (sz : Nat) : Nat := roundUp sz / PGSIZE

theorem roundUp_pages (sz : Nat) : roundUp sz = pagesOf sz * PGSIZE := by
  simp only [pagesOf, roundUp, pgRoundUp, PGSIZE]
  omega

theorem pagesOf_le {sz : Nat} (small : sz ≤ MAXVA) : pagesOf sz ≤ MAXVA / PGSIZE := by
  simp only [pagesOf, roundUp, pgRoundUp, MAXVA, PGSIZE] at *
  omega

theorem page_lt {sz m : Nat} (small : sz ≤ MAXVA) : m * PGSIZE < sz ↔ m < pagesOf sz := by
  simp only [pagesOf, roundUp, pgRoundUp, MAXVA, PGSIZE] at *
  omega

theorem page_next {m : Nat} (below : m * PGSIZE < MAXVA) :
    (m * PGSIZE + PGSIZE) % 2 ^ 64 = (m + 1) * PGSIZE := by
  simp only [MAXVA, PGSIZE] at *
  omega

theorem page_scale {m : Nat} : m * PGSIZE < MAXVA ↔ m < MAXVA / PGSIZE := by
  simp only [MAXVA, PGSIZE]
  omega

theorem uvmunmap_nothing (cfg : Config) (r n : Nat) : uvmunmap cfg r (n * PGSIZE) 0 true = pure () := by
  rw [uvmunmap, if_neg (by simp)]
  rfl

theorem uvmdealloc_eq (cfg : Config) (r : Nat) {newsz : Nat} (order : newsz ≤ oldsz)
    (small : pagesOf newsz < pagesOf oldsz → pagesOf oldsz ≤ MAXVA / PGSIZE) :
    uvmdealloc cfg r oldsz newsz = (do
      uvmunmap cfg r (pagesOf newsz * PGSIZE) (pagesOf oldsz - pagesOf newsz) true
      return newsz) := by
  unfold uvmdealloc
  by_cases same : oldsz ≤ newsz
  · obtain rfl : oldsz = newsz := le_antisymm same order
    rw [if_pos same, Nat.sub_self, uvmunmap_nothing]
    rfl
  · rw [if_neg same]
    by_cases fewer : pagesOf newsz < pagesOf oldsz
    · have pages : signExtend ((roundUp oldsz - roundUp newsz) / PGSIZE) =
          pagesOf oldsz - pagesOf newsz := by
        have bound := small fewer
        rw [roundUp_pages, roundUp_pages, ← Nat.sub_mul, Nat.mul_div_cancel _ (by decide : 0 < PGSIZE),
          signExtend]
        simp only [MAXVA, PGSIZE] at bound
        rw [if_pos (by omega), Nat.mod_eq_of_lt (by omega)]
      rw [if_pos, pages, roundUp_pages]
      rw [roundUp_pages, roundUp_pages]
      exact Nat.mul_lt_mul_of_pos_right fewer (by decide)
    · rw [if_neg, Nat.sub_eq_zero_of_le (by omega), uvmunmap_nothing]
      · rfl
      · rw [roundUp_pages, roundUp_pages, not_lt]
        exact Nat.mul_le_mul_right _ (by omega)

end Sizes

section AddPage
variable {cfg : Config} {Pg I D : Nat → Prop} {own own' : Nat → Label} {mem mem' mem2 : Mem}
  {s s1 : Mach} {r v y perm : Nat} {S S' : Shape}

theorem UsersIn.add (users : UsersIn D own r S) (inside : D v) (absent : S.leaf v = none)
    (free : own y = .free) (address : PTE2PA e = y) (leaf : S'.leaf = update S.leaf v (some e)) :
    UsersIn D (update own y (.user r v)) r S' := by
  intro w x
  rw [leaf]
  by_cases here : w = v
  · subst here
    rw [update_self]
    by_cases same : x = y
    · simp [same, inside, address]
    · have nobody : own x ≠ .user r w := by
        intro label
        obtain ⟨_, e', found, _⟩ := (users w x).mp label
        rw [absent] at found
        cases found
      simp [update_of_ne same, nobody, address, Ne.symm same]
  · rw [update_of_ne here, ← users w x]
    by_cases same : x = y
    · simp [same, free, Ne.symm here]
    · rw [update_of_ne same]

theorem Takes.back {own1 : Nat → Label} (free : own y = .free)
    (takes : Takes (Function.update own y l) own1) : Takes own (Function.update own1 y .free) := by
  intro x label
  by_cases same : x = y
  · rw [same, free]
  · rw [update_of_ne same] at label
    have before := takes x label
    rwa [update_of_ne same] at before

theorem addPage_in {E : Panic → Prop} (pt : PageTable Pg I own s r S) (users : UsersIn D own r S)
    (free : own y = .free) (only : OnlyPage s.mem s1.mem y)
    (taken : Heap Pg (update own y (.user r v)) s1) (content : OnlyPage s1.mem mem2 y)
    (small : perm < 2 ^ 10) (accepts : IsPage cfg y) (high : MAXVA / PGSIZE ≤ v → E .walk)
    (remap : v < MAXVA / PGSIZE → S.leaf v ≠ none → E .mappagesRemap)
    (inside : v < MAXVA / PGSIZE → S.leaf v = none → D v) :
    wp (mappages r (v * PGSIZE) PGSIZE y perm) E (fun ok s3 =>
      if ok then
        ∃ own' S', PageTable Pg I own' s3 r S' ∧ UsersIn D own' r S' ∧
          Within (Adds r v) own own' s.mem s3.mem ∧ Takes own own' ∧
          v < MAXVA / PGSIZE ∧ S.leaf v = none ∧
          S'.leaf = update S.leaf v (some (leafOf y perm)) ∧ SamePage mem2 s3.mem y
      else
        wp (kfree cfg y) (fun _ => False) (fun _ s4 => ∃ own' S', PageTable Pg I own' s4 r S' ∧
          UsersIn D own' r S' ∧ Within (Adds r v) own own' s.mem s4.mem ∧ Takes own own' ∧
          S'.leaf = S.leaf) s3) { s1 with mem := mem2 } := by
  have phys := pt.toHeap.used (x := y) (by simp [free])
  have index : v * PGSIZE / PGSIZE = v := Nat.mul_div_cancel v (by decide)
  have first : Within (fun l => l = .free ∨ l = .user r v) own (update own y (.user r v))
      s.mem mem2 := Within.relabel (.inl free) (.inr rfl) (only.trans content)
  have adds : ∀ l, l = .free ∨ l = .user r v → Adds r v l := by
    intro l label
    rcases label with label | label
    · exact .inl (by rw [label]; trivial)
    · exact .inr label
  have labelled : PageTable Pg I (update own y (.user r v)) { s1 with mem := mem2 } r S :=
    ⟨taken.frame (P := fun l => l = .user r v) (Within.touch (by simp) content) (by simp) (by simp),
      pt.tree.frame pt.used first (by simp), pt.plain⟩
  rw [mappages, if_neg (by simp), if_neg (by simp), if_neg (by simp [PGSIZE]),
    Nat.div_self (by decide : 0 < PGSIZE)]
  by_cases below : v * PGSIZE < MAXVA
  case neg =>
    rw [mapLoop, wp_bind, walk, if_pos (by omega)]
    exact high (by rwa [← not_lt, ← page_scale])
  apply mapLoop_step labelled small (lt_trans phys.2 (by norm_num)) (by omega)
  · intro _ used
    rw [index] at used
    exact remap (page_scale.mp below) used
  · intro own' S' s3 pt' leaf within takes
    have label : own' y = .user r v := by
      rw [within.iff (by simp [Tables]), update_self]
    rw [if_neg (by simp)]
    apply wp_post (kfree_spec pt'.toHeap accepts (by simp [label]) (by simp [label]))
    rintro _ s4 ⟨only', heap'⟩
    have last : Within (fun l => l = .free ∨ l = .user r v) own' (update own' y .free)
        s3.mem s4.mem := Within.relabel (.inr label) (.inl rfl) only'
    refine ⟨_, S', ⟨heap', pt'.tree.frame pt'.used last (by simp), pt.plain⟩, fun w x => ?_,
      ((first.mono adds).trans (within.mono fun _ => .inl)).trans (last.mono adds), takes.back free, leaf⟩
    rw [leaf, ← users w x]
    by_cases same : x = y
    · simp [same, free]
    · rw [update_of_ne same, within.iff (by simp [Tables]), update_of_ne same]
  · intro own' S' s3 pt' absent leaf within takes
    rw [index] at absent leaf
    rw [mapLoop, wp_pure, if_pos rfl]
    refine ⟨own', S', pt', ?_, (first.mono adds).trans (within.mono fun _ => .inl),
      (Takes.update (by simp)).trans takes, page_scale.mp below, absent, leaf,
      within.bytes y phys.1 (by simp [Tables])⟩
    exact (users.add (inside (page_scale.mp below) absent) absent free (PTE2PA_leafOf small phys) leaf).frame within
      (by simp [Tables])

end AddPage

def Plan : Type := Nat → Option (Nat × (Nat → UInt8))

/-- The tree at r, which had the shape S among the labels own, with the pages from u up to m
added as planned. -/
structure Growth (Pg I D : Nat → Prop) (plan : Plan) (own : Nat → Label) (mem : Mem) (S : Shape)
    (r u m : Nat) (own1 : Nat → Label) (s1 : Mach) (S1 : Shape) : Prop
    extends PageTable Pg I own1 s1 r S1 where
  within : Within (Among r (u ≤ ·)) own own1 mem s1.mem
  users : UsersIn D own1 r S1
  others : ∀ v, ¬(u ≤ v ∧ v < m) → S1.leaf v = S.leaf v
  new : ∀ x v, u ≤ v → v < m → own1 x = .user r v → own x = .free
  takes : Takes own own1
  holes : ∀ v, u ≤ v → v < m → plan v = none → S1.leaf v = none
  pages : ∀ v perm bytes, u ≤ v → v < m → plan v = some (perm, bytes) → ∃ y,
    own1 y = .user r v ∧ S1.leaf v = some (leafOf y perm) ∧ ∀ o < PGSIZE, s1.mem (y + o) = bytes o

section Growth
variable {cfg : Config} {Pg I D : Nat → Prop} {plan : Plan} {own own1 : Nat → Label} {mem mem2 : Mem}
  {s s1 s2 : Mach} {r u m : Nat} {S S1 : Shape}

theorem Growth.mine (growth : Growth Pg I D plan own mem S r u m own1 s1 S1) :
    Within (Mine r) own own1 mem s1.mem := growth.within.mono fun _ => Among.mine

theorem Growth.start (pt : PageTable Pg I own s r S) (users : UsersIn D own r S) (u : Nat) :
    Growth Pg I D plan own s.mem S r u u own s S where
  toPageTable := pt
  within := Within.refl _ _ _
  users := users
  others _ _ := rfl
  new x v low high := by omega
  takes := Takes.refl own
  holes v low high := by omega
  pages v perm bytes low high := by omega

section
variable (growth : Growth Pg I D plan own mem S r u m own1 s1 S1)
include growth

theorem Growth.same (same : s2.mem = s1.mem)
    (heap : Heap Pg own1 s2) : Growth Pg I D plan own mem S r u m own1 s2 S1 :=
  { growth with
    toPageTable := ⟨heap, same ▸ growth.tree, growth.plain⟩
    within := same ▸ growth.within
    pages := same ▸ growth.pages }

theorem Growth.hole (planned : plan m = none)
    (absent : S.leaf m = none) : Growth Pg I D plan own mem S r u (m + 1) own1 s1 S1 := by
  have unmapped : S1.leaf m = none := by rw [growth.others m (by omega), absent]
  refine { growth with others := ?_, new := ?_, holes := ?_, pages := ?_ }
  · intro v outside
    exact growth.others v (by omega)
  · intro x v low high label
    by_cases here : v = m
    · obtain ⟨_, e, found, _⟩ := (growth.users v x).mp label
      rw [here, unmapped] at found
      cases found
    · exact growth.new x v low (by omega) label
  · intro v low high hole
    by_cases here : v = m
    · rw [here, unmapped]
    · exact growth.holes v low (by omega) hole
  · intro v perm bytes low high page
    have here : v ≠ m := by
      rintro rfl
      rw [planned] at page
      cases page
    exact growth.pages v perm bytes low (by omega) page

theorem Growth.page_kept {own2 : Nat → Label} {v perm : Nat} (low : u ≤ v) (high : v < m)
    (planned : plan v = some (perm, bytes)) (within : Within (Adds r m) own1 own2 s1.mem s2.mem) :
    ∃ y, own2 y = .user r v ∧ S1.leaf v = some (leafOf y perm) ∧ ∀ o < PGSIZE, s2.mem (y + o) = bytes o := by
  obtain ⟨y, label, leaf, filled⟩ := growth.pages v perm bytes low high planned
  have outside : ¬Adds r m (own1 y) := by
    simp only [label, Adds, Tables, Label.user.injEq, true_and, false_or]
    omega
  refine ⟨y, by rw [within.label y outside, label], leaf, fun o inside => ?_⟩
  rw [within.bytes y (growth.toHeap.used (by simp [label])).1 outside o inside, filled o inside]

theorem Growth.extend {own2 : Nat → Label} {S2 : Shape} {y perm : Nat} (order : u ≤ m)
    (pt : PageTable Pg I own2 s2 r S2) (users : UsersIn D own2 r S2) (inside : D m)
    (planned : plan m = some (perm, bytes)) (small : perm < 2 ^ 10) (free : own1 y = .free)
    (within : Within (Adds r m) own1 own2 s1.mem s2.mem) (takes : Takes own1 own2)
    (leaf : S2.leaf = update S1.leaf m (some (leafOf y perm)))
    (filled : ∀ o < PGSIZE, s2.mem (y + o) = bytes o) :
    Growth Pg I D plan own mem S r u (m + 1) own2 s2 S2 := by
  have phys := growth.toHeap.used (x := y) (by simp [free])
  have label : own2 y = .user r m := by
    have mapped := users.label (v := m) (e := leafOf y perm) inside (by rw [leaf, update_self])
    rwa [PTE2PA_leafOf small phys] at mapped
  have only : ∀ x, own2 x = .user r m → x = y := by
    intro x label'
    obtain ⟨_, e, found, address⟩ := (users m x).mp label'
    rw [leaf, update_self] at found
    rw [← address, ← Option.some.inj found, PTE2PA_leafOf small phys]
  have before : ∀ x v, v ≠ m → own2 x = .user r v → own1 x = .user r v := by
    intro x v other label'
    exact (within.iff (by simpa [Adds, Tables] using other)).mp label'
  constructor
  · exact pt
  · exact growth.within.trans (within.mono fun _ => Adds.among order)
  · exact users
  · intro v outside
    rw [leaf, update_of_ne (by omega), growth.others v (by omega)]
  · intro x v low high label'
    by_cases here : v = m
    · rw [only x (here ▸ label')]
      exact growth.takes y free
    · exact growth.new x v low (by omega) (before x v here label')
  · exact growth.takes.trans takes
  · intro v low high hole
    have here : v ≠ m := by
      rintro rfl
      rw [planned] at hole
      cases hole
    rw [leaf, update_of_ne here, growth.holes v low (by omega) hole]
  · intro v perm' bytes' low high page
    by_cases here : v = m
    · subst here
      obtain ⟨rfl, rfl⟩ := Prod.mk.inj (Option.some.inj (planned.symm.trans page))
      exact ⟨y, label, by rw [leaf, update_self], filled⟩
    · rw [leaf, update_of_ne here]
      exact growth.page_kept low (by omega) page within

theorem Growth.inside {v : Nat} {page : Nat × (Nat → UInt8)} (low : u ≤ v) (high : v < m)
    (planned : plan v = some page) : D v := by
  obtain ⟨y, label, -⟩ := growth.pages v page.1 page.2 low high planned
  exact ((growth.users v y).mp label).1

theorem Growth.addPage {E : Panic → Prop} {y perm : Nat} (order : u ≤ m)
    (planned : plan m = some (perm, bytes)) (small : perm < 2 ^ 10) (accepts : IsPage cfg y)
    (free : own1 y = .free) (only : OnlyPage s1.mem s2.mem y)
    (taken : Heap Pg (update own1 y (.user r m)) s2) (content : OnlyPage s2.mem mem2 y)
    (filled : ∀ o < PGSIZE, mem2 (y + o) = bytes o) (high : MAXVA / PGSIZE ≤ m → E .walk)
    (remap : m < MAXVA / PGSIZE → S.leaf m ≠ none → E .mappagesRemap)
    (inside : m < MAXVA / PGSIZE → S.leaf m = none → D m) :
    wp (mappages r (m * PGSIZE) PGSIZE y perm) E (fun ok s3 =>
      if ok then m < MAXVA / PGSIZE ∧ S.leaf m = none ∧
          ∃ own' S', Growth Pg I D plan own mem S r u (m + 1) own' s3 S'
      else wp (kfree cfg y) (fun _ => False) (fun _ s4 => ∃ own' S',
        Growth Pg I D plan own mem S r u m own' s4 S') s3) { s2 with mem := mem2 } := by
  have unmapped : S1.leaf m = S.leaf m := growth.others m (by omega)
  apply wp_post (addPage_in growth.toPageTable growth.users free only taken content small accepts high
    (unmapped ▸ remap) (unmapped ▸ inside))
  intro ok s3 mapped
  cases ok with
  | true =>
    obtain ⟨own3, S3, pt, users, within, takes, below, absent, leaf, kept⟩ := mapped
    rw [unmapped] at absent
    refine ⟨below, absent, own3, S3, growth.extend order pt users (inside below absent) planned small free
      within takes leaf fun o low => ?_⟩
    rw [kept o low, filled o low]
  | false =>
    apply wp_post mapped
    rintro _ s4 ⟨own4, S4, pt, users, within, takes, leaf⟩
    refine ⟨own4, S4, pt, growth.within.trans (within.mono fun _ => Adds.among order), users, ?_, ?_,
      growth.takes.trans takes, ?_, ?_⟩
    · rw [leaf]
      exact growth.others
    · intro x v low above label
      exact growth.new x v low above
        ((within.iff (by simp only [Adds, Tables, Label.user.injEq, true_and, false_or]; omega)).mp label)
    · rw [leaf]
      exact growth.holes
    · rw [leaf]
      exact fun v perm' bytes' low above page => growth.page_kept low above page within

theorem Growth.rollback (order : u ≤ m)
    (top : u < m → m ≤ MAXVA / PGSIZE) (absent : ∀ v, u ≤ v → v < m → S.leaf v = none)
    (inside : ∀ v, u ≤ v → v < m → D v) (accepts : ∀ x, own x = .free → IsPage cfg x) :
    wp (uvmunmap cfg r (u * PGSIZE) (m - u) true) (fun _ => False) (fun _ s2 => ∃ own2 S2,
      Growth Pg I D plan own mem S r u u own2 s2 S2) s1 := by
  by_cases first : m = u
  · rw [first, Nat.sub_self, uvmunmap_nothing]
    exact ⟨own1, S1, first ▸ growth⟩
  have stop : u + (m - u) = m := by omega
  apply wp_post (uvmunmap_in growth.toPageTable (by omega) growth.users
    (fun v low high => inside v low (by omega))
    fun x v low high label => accepts x (growth.new x v low (by omega) label))
  rintro _ s2 ⟨own2, S2, pt, within, leaf, users, released⟩
  rw [stop] at leaf released
  refine ⟨own2, S2, pt, growth.within.trans within, users, fun v _ => ?_, fun x v low high => by omega,
    fun x label => ?_, fun v low high => by omega, fun v perm bytes low high => by omega⟩
  · rw [leaf, Shape.cut]
    split_ifs with between
    · exact (absent v between.1 between.2).symm
    · exact growth.others v between
  · rcases released x with ⟨⟨v, between, label'⟩, _⟩ | ⟨_, same⟩
    · exact growth.new x v between.1 between.2 label'
    · exact growth.takes x (same ▸ label)

end
end Growth

section Uvmalloc
variable {cfg : Config} {Pg I D : Nat → Prop} {own own1 : Nat → Label} {mem : Mem} {s s1 : Mach}
  {r u m newsz xperm : Nat} {S S1 : Shape} {E : Panic → Prop}

def zeroed (xperm : Nat) : Plan := fun _ => some (PTE_R ||| PTE_U ||| xperm, fun _ => 0)

/-- What uvmalloc has added when it returns sz: nothing, or the pages below newsz. -/
def Allocated (Pg I D : Nat → Prop) (own : Nat → Label) (mem : Mem) (S : Shape) (r u newsz xperm sz : Nat)
    (s' : Mach) : Prop :=
  ∃ own' S' m, Growth Pg I D (zeroed xperm) own mem S r u m own' s' S' ∧
    (sz = 0 ∧ m = u ∨ sz = newsz ∧ newsz ≤ m * PGSIZE ∧ (m = u ∨ u < m ∧ (m - 1) * PGSIZE < newsz))

theorem last_page (order : u ≤ m) (below : ∀ v, u ≤ v → v < m → v * PGSIZE < newsz) :
    m = u ∨ u < m ∧ (m - 1) * PGSIZE < newsz := by
  by_cases first : m = u
  · exact .inl first
  · exact .inr ⟨by omega, below (m - 1) (by omega) (by omega)⟩

/-- The loop of uvmalloc, which started at page u and is at page m. It panics if it comes to a
page that is mapped already, or to the end of the address space. -/
theorem growLoop_rule (k : Nat) (small : xperm < 2 ^ 10) (accepts : ∀ x, own x = .free → IsPage cfg x)
    (inside : ∀ v own1 s1 S1, v < MAXVA / PGSIZE → u ≤ v → v * PGSIZE < newsz → S.leaf v = none →
      Growth Pg I D (zeroed xperm) own mem S r u v own1 s1 S1 → D v)
    (high : ∀ v own1 s1 S1, MAXVA / PGSIZE ≤ v → u ≤ v → v * PGSIZE < newsz →
      Growth Pg I D (zeroed xperm) own mem S r u v own1 s1 S1 → (∃ y, own1 y = .free) → E .walk)
    (remap : ∀ v own1 s1 S1, v < MAXVA / PGSIZE → u ≤ v → v * PGSIZE < newsz → S.leaf v ≠ none →
      Growth Pg I D (zeroed xperm) own mem S r u v own1 s1 S1 → E .mappagesRemap)
    (growth : Growth Pg I D (zeroed xperm) own mem S r u m own1 s1 S1) (order : u ≤ m)
    (top : u < m → m ≤ MAXVA / PGSIZE)
    (absent : ∀ v, u ≤ v → v < m → S.leaf v = none ∧ v * PGSIZE < newsz)
    (enough : newsz ≤ (m + k) * PGSIZE) :
    wp (growLoop cfg r (u * PGSIZE) newsz xperm k (m * PGSIZE)) E
      (Allocated Pg I D own mem S r u newsz xperm) s1 := by
  induction k generalizing m own1 S1 s1 with
  | zero => exact ⟨own1, S1, m, growth, .inr ⟨rfl, enough, last_page order fun v low high => (absent v low high).2⟩⟩
  | succ k ih =>
    have fail : ∀ own2 s2 S2, Growth Pg I D (zeroed xperm) own mem S r u m own2 s2 S2 →
        wp (uvmdealloc cfg r (m * PGSIZE) (u * PGSIZE)) E (fun _ s' =>
          Allocated Pg I D own mem S r u newsz xperm 0 s') s2 := by
      intro own2 s2 S2 growth2
      by_cases first : m = u
      · rw [first, uvmdealloc, if_pos le_rfl]
        exact ⟨own2, S2, m, growth2, .inl ⟨rfl, first⟩⟩
      have top := top (by omega)
      have pages : ∀ n, n ≤ MAXVA / PGSIZE → pagesOf (n * PGSIZE) = n := by
        intro n bound
        simp only [pagesOf, roundUp, pgRoundUp, MAXVA, PGSIZE] at *
        omega
      rw [uvmdealloc_eq cfg r (Nat.mul_le_mul_right _ order) (by rw [pages m top]; exact fun _ => top),
        pages m top, pages u (le_trans order top), wp_bind]
      have unmap := growth2.rollback order (fun _ => top) (fun v low high => (absent v low high).1)
        (fun v low high => growth2.inside low high rfl) accepts
      apply wp_never unmap
      rintro _ s3 ⟨own3, S3, growth3⟩
      exact ⟨own3, S3, u, growth3, .inl ⟨rfl, rfl⟩⟩
    rw [growLoop]
    by_cases more : m * PGSIZE < newsz
    · rw [if_pos more, wp_bind]
      apply wp_never (kalloc_spec growth.toHeap (.user r m) (by simp))
      intro y s2 taken
      rcases taken with ⟨none, same, heap⟩ | ⟨free, nonzero, only, heap⟩
      · rw [if_pos none]
        apply wp_seq (fail own1 s2 S1 (growth.same same heap))
        intro _ s' allocated
        exact allocated
      · rw [if_neg nonzero, wp_bind, wp_memset, wp_bind]
        have page := growth.toHeap.used (x := y) (by simp [free])
        apply wp_post (growth.addPage order rfl (Nat.or_lt_two_pow (by decide) small)
          (accepts y (growth.takes y free)) free only heap (onlyPage_fill page.1)
          (fun o low => Bytes.fill_inside (by omega) (by omega))
          (fun above => high m own1 s1 S1 above order more growth ⟨y, free⟩)
          (fun below mapped => remap m own1 s1 S1 below order more mapped growth)
          (fun below unmapped => inside m own1 s1 S1 below order more unmapped growth))
        intro ok s3 mapped
        cases ok with
        | true =>
          obtain ⟨below, unmapped, own3, S3, growth3⟩ := mapped
          rw [if_pos rfl, page_next (page_scale.mpr below)]
          apply ih growth3 (by omega) fun _ => below
          · intro v low above
            by_cases here : v = m
            · exact ⟨here ▸ unmapped, here ▸ more⟩
            · exact absent v low (by omega)
          · rw [show m + 1 + k = m + (k + 1) by omega]
            exact enough
        | false =>
          apply wp_seq (wp_never mapped fun _ _ h => h)
          rintro _ s4 ⟨own4, S4, growth4⟩
          apply wp_seq (fail own4 s4 S4 growth4)
          intro _ s' allocated
          exact allocated
    · rw [if_neg more]
      exact ⟨own1, S1, m, growth, .inr ⟨rfl, by omega, last_page order fun v low high => (absent v low high).2⟩⟩

theorem uvmalloc_rule (small : xperm < 2 ^ 10) (accepts : ∀ x, own x = .free → IsPage cfg x)
    (inside : ∀ v own1 s1 S1, v < MAXVA / PGSIZE → pagesOf oldsz ≤ v → v * PGSIZE < newsz → S.leaf v = none →
      Growth Pg I D (zeroed xperm) own s.mem S r (pagesOf oldsz) v own1 s1 S1 → D v)
    (high : ∀ v own1 s1 S1, MAXVA / PGSIZE ≤ v → pagesOf oldsz ≤ v → v * PGSIZE < newsz →
      Growth Pg I D (zeroed xperm) own s.mem S r (pagesOf oldsz) v own1 s1 S1 →
      (∃ y, own1 y = .free) → E .walk)
    (remap : ∀ v own1 s1 S1, v < MAXVA / PGSIZE → pagesOf oldsz ≤ v → v * PGSIZE < newsz → S.leaf v ≠ none →
      Growth Pg I D (zeroed xperm) own s.mem S r (pagesOf oldsz) v own1 s1 S1 → E .mappagesRemap)
    (pt : PageTable Pg I own s r S) (users : UsersIn D own r S) (order : oldsz ≤ newsz) :
    wp (uvmalloc cfg r oldsz newsz xperm) E
      (Allocated Pg I D own s.mem S r (pagesOf oldsz) newsz xperm) s := by
  rw [uvmalloc, if_neg (by omega), roundUp_pages]
  apply growLoop_rule _ small accepts inside high remap (Growth.start pt users _) le_rfl
  · intro more
    omega
  · intro v low above
    omega
  · simp only [PGSIZE]
    omega

end Uvmalloc

section Uvmcopy
variable {cfg : Config} {E : Panic → Prop} {Pg I J D : Nat → Prop} {own own1 : Nat → Label} {mem : Mem} {s s1 : Mach}
  {r rn m sz : Nat} {S Sn S1 : Shape}

/-- uvmcopy adds copies of the pages of another address space, with their flags. -/
def copies (mem : Mem) (S : Shape) : Plan := fun v =>
  (S.leaf v).map fun e => (PTE_FLAGS e, fun o => mem (PTE2PA e + o))

theorem copies_some {v : Nat} (leaf : S.leaf v = some e) :
    copies mem S v = some (PTE_FLAGS e, fun o => mem (PTE2PA e + o)) := congrArg (Option.map _) leaf

theorem copies_none {v : Nat} (leaf : S.leaf v = none) : copies mem S v = none :=
  congrArg (Option.map _) leaf

theorem flags_lt (e : Nat) : PTE_FLAGS e < 2 ^ 10 := Nat.mod_lt _ (by decide)

/-- What uvmcopy has added to the tree at rn: copies of all pages below sz, or nothing. -/
def Duplicated (Pg I D : Nat → Prop) (own : Nat → Label) (mem : Mem) (S Sn : Shape) (rn sz : Nat)
    (ok : Bool) (s' : Mach) : Prop :=
  (ok = true → sz ≤ MAXVA) ∧
    ∃ own' S', Growth Pg I D (copies mem S) own mem Sn rn 0 (if ok then pagesOf sz else 0) own' s' S'

theorem Growth.duplicated (growth : Growth Pg I D (copies mem S) own mem Sn rn 0 m own1 s1 S1)
    (top : m ≤ MAXVA / PGSIZE) (before : ∀ v < m, v * PGSIZE < sz) (stop : ¬m * PGSIZE < sz) :
    Duplicated Pg I D own mem S Sn rn sz true s1 := by
  have fits : sz ≤ MAXVA := by
    simp only [MAXVA, PGSIZE] at *
    omega
  have last := before (m - 1)
  rw [page_lt fits] at stop last
  obtain rfl : m = pagesOf sz := by omega
  exact ⟨fun _ => fits, own1, S1, growth⟩

theorem copyLoop_rule (k : Nat) (accepts : ∀ x, own x = .free → IsPage cfg x)
    (high : ∀ own1 s1 S1, MAXVA < sz →
      Growth Pg I D (copies mem S) own mem Sn rn 0 (MAXVA / PGSIZE) own1 s1 S1 → E .walk)
    (empty : ∀ v < MAXVA / PGSIZE, v * PGSIZE < sz → Sn.leaf v = none ∧ D v) (source : Tree J own mem r S)
    (labelled : ∀ x, own x ≠ .outside → Phys x) (other : r ≠ rn)
    (apart : ∀ v e, v < MAXVA / PGSIZE → v * PGSIZE < sz → S.leaf v = some e → ¬Mine rn (own (PTE2PA e)))
    (growth : Growth Pg I D (copies mem S) own mem Sn rn 0 m own1 s1 S1) (top : m ≤ MAXVA / PGSIZE)
    (before : ∀ v < m, v * PGSIZE < sz) (enough : sz ≤ (m + k) * PGSIZE) :
    wp (copyLoop cfg r rn sz k (m * PGSIZE)) E (Duplicated Pg I D own mem S Sn rn sz) s1 := by
  induction k generalizing m own1 S1 s1 with
  | zero =>
    rw [Nat.add_zero] at enough
    exact growth.duplicated top before (by omega)
  | succ k ih =>
    rw [copyLoop]
    by_cases more : m * PGSIZE < sz
    · by_cases below : m * PGSIZE < MAXVA
      case neg =>
        rw [if_pos more, wp_bind, walk, if_pos (by omega)]
        rw [page_scale, not_lt] at below
        exact high own1 s1 S1 (by simp only [MAXVA, PGSIZE] at *; omega) (le_antisymm top below ▸ growth)
      have free : ∀ v, v ≤ m → Sn.leaf v = none ∧ D v := by
        intro v inside
        rw [page_scale] at below
        exact empty v (by omega) ((Nat.mul_le_mul_right _ inside).trans_lt more)
      have index : m * PGSIZE / PGSIZE = m := Nat.mul_div_cancel m (by decide)
      have tree : Tree J own1 s1.mem r S :=
        source.frame labelled growth.mine (by simpa [Mine, Label.root] using other)
      have next : ∀ {own2 s2 S2}, Growth Pg I D (copies mem S) own mem Sn rn 0 (m + 1) own2 s2 S2 →
          wp (copyLoop cfg r rn sz k ((m * PGSIZE + PGSIZE) % 2 ^ 64)) E
            (Duplicated Pg I D own mem S Sn rn sz) s2 := by
        intro own2 s2 S2 growth2
        rw [page_next below]
        apply ih growth2 (page_scale.mp below)
        · intro v inside
          exact (Nat.mul_le_mul_right _ (by omega : v ≤ m)).trans_lt more
        · rw [show m + 1 + k = m + (k + 1) by omega]
          exact enough
      have fail : ∀ {own2 s2 S2}, Growth Pg I D (copies mem S) own mem Sn rn 0 m own2 s2 S2 →
          wp (uvmunmap cfg rn 0 m true) E (fun _ s' =>
            Duplicated Pg I D own mem S Sn rn sz false s') s2 := by
        intro own2 s2 S2 growth2
        have back := growth2.rollback (Nat.zero_le m) (fun _ => top) (fun v _ high => (free v high.le).1)
          (fun v _ high => (free v high.le).2) accepts
        rw [Nat.zero_mul, Nat.sub_zero] at back
        apply wp_never back
        rintro _ s3 failed
        exact ⟨fun never => (by cases never), failed⟩
      rw [if_pos more, wp_bind]
      apply wp_never (walk_find tree below)
      rintro a s' ⟨same, found⟩
      subst same found
      rw [index]
      cases leaf : S.leaf m with
      | none =>
        have hole := growth.hole (copies_none leaf) (free m le_rfl).1
        cases table : S.table 0 (m / 512) with
        | none => exact next hole
        | some t =>
          have entry := tree.read_leaf table
          rw [leaf, valid_eq_none] at entry
          simp only [Option.map_some, wp_bind, wp_readPte]
          rw [if_pos entry]
          exact next hole
      | some e =>
        cases table : S.table 0 (m / 512) with
        | none =>
          rw [tree.leafParent m table] at leaf
          cases leaf
        | some t =>
          have entry := tree.read_leaf table
          rw [leaf, valid_eq_some] at entry
          obtain ⟨holds, value⟩ := entry
          have outside := apart m e (page_scale.mp below) more leaf
          have aligned := PTE2PA_aligned e
          simp only [Option.map_some, wp_bind, wp_readPte]
          rw [if_neg holds, ← value, wp_bind]
          apply wp_never (kalloc_spec growth.toHeap (.user rn m) (by simp))
          intro y s2 taken
          rcases taken with ⟨none, sameMem, heap⟩ | ⟨spare, nonzero, only, heap⟩
          · rw [if_pos none]
            apply wp_seq (fail (growth.same sameMem heap))
            intro _ s3 failed
            exact failed
          · rw [if_neg nonzero, wp_bind, wp_memmove, wp_bind]
            have page := growth.toHeap.used (x := y) (by simp [spare])
            have distinct : PTE2PA e ≠ y := by
              rintro rfl
              exact outside (.inl (growth.takes _ spare))
            apply wp_post (growth.addPage (Nat.zero_le m) (copies_some leaf) (flags_lt e)
              (accepts y (growth.takes y spare)) spare only heap
              (onlyPage_write page.1 le_rfl (by rw [Bytes.length_read])) ?_
              (fun above => absurd (page_scale.mp below) (by omega))
              (fun _ mapped => absurd (free m le_rfl).1 mapped) (fun _ _ => (free m le_rfl).2))
            · intro ok s3 mapped
              cases ok with
              | true =>
                obtain ⟨-, -, own3, S3, growth3⟩ := mapped
                exact next growth3
              | false =>
                apply wp_seq (wp_never mapped fun _ _ h => h)
                rintro _ s4 ⟨own4, S4, growth4⟩
                apply wp_seq (fail growth4)
                intro _ s5 failed
                exact failed
            · intro o low
              rw [Bytes.write_read low, only _ aligned distinct o low,
                growth.mine.bytes _ aligned outside o low]
    · rw [if_neg more]
      exact growth.duplicated top before more

theorem uvmcopy_rule (accepts : ∀ x, own x = .free → IsPage cfg x)
    (high : ∀ own1 s1 S1, MAXVA < sz →
      Growth Pg I D (copies s.mem S) own s.mem Sn rn 0 (MAXVA / PGSIZE) own1 s1 S1 → E .walk)
    (empty : ∀ v < MAXVA / PGSIZE, v * PGSIZE < sz → Sn.leaf v = none ∧ D v) (source : Tree J own s.mem r S)
    (other : r ≠ rn)
    (apart : ∀ v e, v < MAXVA / PGSIZE → v * PGSIZE < sz → S.leaf v = some e → ¬Mine rn (own (PTE2PA e)))
    (pt : PageTable Pg I own s rn Sn) (users : UsersIn D own rn Sn) :
    wp (uvmcopy cfg r rn sz) E (Duplicated Pg I D own s.mem S Sn rn sz) s := by
  have loop := copyLoop_rule (sz / PGSIZE + 1) accepts high empty source pt.used other apart
    (Growth.start pt users 0) (Nat.zero_le _) (fun v none => absurd none (Nat.not_lt_zero v))
    (by simp only [PGSIZE]; omega)
  rwa [Nat.zero_mul] at loop

end Uvmcopy
end Xv6Lab.Mm
