import Mathlib
import NetBsd.Libc.MallocBlocks

/-!
# Programs that use malloc

A program that frees, reallocates and writes live blocks only keeps the heap in order, unless it
meets one of two slips. A `realloc` that cannot get memory has freed the block already, and a setup
that was cut short by `sbrk` leaves the bucket of a page at zero, so that a later request of more
than a page gets a block that is too small.

## Main definitions

* `Safe`: live blocks and free blocks lie apart, and every block is large enough
* `Act.Sound`: the action meets neither slip

## Main results

* `heap_safe`: programs whose actions are sound
* `not_heap_safe`, `not_heap_safe_setup`: one program for each slip
-/

namespace Malloc

open ByteMem Function

variable {pg : PageSize} {h : Heap} {live : List Block} {F : ℕ → List ℕ}

/-! ## `malloc` -/

theorem Inv.grow (hi : Inv pg h live F) (pagebucket : ℕ) {brk : ℕ} (hle : h.brk ≤ brk)
    (hlt : brk < 2 ^ 32) :
    Inv pg { h with pagesz := pg.size, pagebucket := pagebucket, brk := brk } live F where
  page := .inr rfl
  chain := hi.chain
  place hp := by
    obtain ⟨h₁, h₂, h₃⟩ := hi.place hp
    exact ⟨h₁, h₂.trans hle, h₃⟩
  apart := hi.apart
  nodup := hi.nodup
  nodupLive := hi.nodupLive
  split := hi.split
  header := hi.header
  room := hi.room
  zero a ha := hi.zero a (hle.trans ha)
  brk := ⟨hi.brk.1.trans_le hle, hlt⟩

/-- Whatever comes of the setup, the blocks stay; if it goes on, the page size and the bucket of a
page are there. -/
theorem setup_spec (hi : Inv pg h live F) {nbytes : ℕ} (ok : Bool)
    (hready : Ready pg h.pagesz h.pagebucket nbytes) :
    (∃ h', setup pg h ok = (none, h') ∧ Inv pg h' live F ∧ h'.mem = h.mem) ∨
      ∃ h', setup pg h ok = (some h', h') ∧ Inv pg h' live F ∧ h'.mem = h.mem ∧
        h.brk ≤ h'.brk ∧ h'.pagesz = pg.size ∧ Ready pg pg.size h'.pagebucket nbytes := by
  have hsize := size_le pg
  have hup := pg.upper
  by_cases hz : h.pagesz = 0
  · have hbucket : bucketLoop pg.size 32 8 0 = pg.bucket :=
      bucketLoop_eq (b := 0) (by omega) (by omega)
    unfold setup
    rw [if_pos hz]
    simp only
    generalize (if (pg.size : ℤ) - overhead - h.brk % pg.size < 0 then
      (pg.size : ℤ) - overhead - h.brk % pg.size + pg.size
      else (pg.size : ℤ) - overhead - h.brk % pg.size) = n
    by_cases hn : n ≠ 0
    · rw [if_pos hn]
      by_cases hok : ok = true ∧ h.brk + n.toNat < 2 ^ 32
      · right
        refine ⟨{ h with pagesz := pg.size, pagebucket := pg.bucket, brk := h.brk + n.toNat },
          ?_, ?_, rfl, Nat.le_add_right _ _, rfl, .inr (.inl rfl)⟩
        · simp only [sbrk, if_pos hok, hbucket]
        · exact hi.grow pg.bucket (Nat.le_add_right _ _) hok.2
      · left
        refine ⟨{ h with pagesz := pg.size }, ?_, hi.grow h.pagebucket (Nat.le_refl _) hi.brk.2, rfl⟩
        simp only [sbrk, if_neg hok]
    · rw [if_neg hn, hbucket]
      right
      exact ⟨_, rfl, hi.grow pg.bucket (Nat.le_refl _) hi.brk.2, rfl, Nat.le_refl _, rfl,
        .inr (.inl rfl)⟩
  · right
    have hpage : h.pagesz = pg.size := hi.page.resolve_left fun h₀ => hz h₀.1
    refine ⟨h, if_neg hz, hi, rfl, Nat.le_refl _, hpage, ?_⟩
    rw [← hpage]
    exact hready

/-- `malloc` returns a null pointer, or a new block; it writes only to headers of free blocks, and
above the break. -/
theorem malloc_spec (hi : Inv pg h live F) {nbytes : ℕ} (ok₀ ok₁ : Bool)
    (hready : Ready pg h.pagesz h.pagebucket nbytes) :
    ∃ h', (∀ j, j < h.brk → (∀ b, ∀ a ∈ F b, ¬ (a ≤ j ∧ j < a + 4)) → h'.mem j = h.mem j) ∧
      ((malloc pg h nbytes ok₀ ok₁ = (none, h') ∧ ∃ F', Inv pg h' live F') ∨
        ∃ x : Block, x.req = nbytes ∧ malloc pg h nbytes ok₀ ok₁ = (some x.cp, h') ∧
          Block.at h' x.cp nbytes = x ∧ ∃ F', Inv pg h' (x :: live) F') := by
  unfold malloc
  obtain ⟨h₀, hset, hi₀, hm₀⟩ | ⟨h₀, hset, hi₀, hm₀, hbrk₀, hpage, hready₀⟩ :=
    setup_spec hi ok₀ hready
  · refine ⟨h₀, fun j _ _ => by rw [hm₀], .inl ⟨?_, F, hi₀⟩⟩
    simp only [hset]
  simp only [hset, hpage]
  cases hfor : bucketFor pg.size h₀.pagebucket nbytes with
  | none => exact ⟨h₀, fun j _ _ => by rw [hm₀], .inl ⟨rfl, F, hi₀⟩⟩
  | some b =>
    obtain ⟨hfits, hb⟩ := bucketFor_fits hready₀ hfor
    simp only
    by_cases hnext : h₀.nextf b = 0
    · rw [if_pos hnext]
      have hF : F b = [] := by
        have hc := hi₀.chain b
        rw [hnext] at hc
        exact hc.eq_nil
      by_cases hs : Supplied h₀ b ok₁
      · -- the first of the new blocks
        obtain ⟨l, hl, hi₁, hpage₁, -, hm₁, hnew⟩ := morecore_spec hi₀ hF hpage hs
        obtain ⟨a, l, rfl⟩ := List.exists_cons_of_ne_nil hl
        obtain ⟨h₂, htake, hi₂, hat, -, hm₂⟩ :=
          take_spec hi₁ (update_self ..) (hpage₁.trans hpage) hfits
        refine ⟨h₂, ?_, .inr ⟨_, rfl, htake, hat, _, hi₂⟩⟩
        intro j hj _
        have ha := hnew a List.mem_cons_self
        rw [hm₂ j (by omega), hm₁ j (by omega), hm₀]
      · rw [morecore_fail h₀ hs]
        refine ⟨h₀, fun j _ _ => by rw [hm₀], .inl ⟨?_, F, hi₀⟩⟩
        rw [take, if_pos hnext]
    · rw [if_neg hnext]
      obtain ⟨l, hF⟩ := (hi₀.chain b).exists_cons hnext
      obtain ⟨h₂, htake, hi₂, hat, -, hm₂⟩ := take_spec hi₀ hF hpage hfits
      refine ⟨h₂, ?_, .inr ⟨_, rfl, htake, hat, _, hi₂⟩⟩
      intro j _ hj
      rw [hm₂ j (hj b _ (hF ▸ List.mem_cons_self)), hm₀]

/-- There is a free block for the request, or memory for one. -/
def Served (h : Heap) (nbytes : ℕ) (ok : Bool) : Prop :=
  ∃ b, bucketFor h.pagesz h.pagebucket nbytes = some b ∧ (h.nextf b ≠ 0 ∨ Supplied h b ok)

theorem malloc_ne_none (hi : Inv pg h live F) {nbytes : ℕ} (ok₀ : Bool) {ok₁ : Bool}
    (hpage : h.pagesz = pg.size) (hs : Served h nbytes ok₁) :
    (malloc pg h nbytes ok₀ ok₁).1 ≠ none := by
  obtain ⟨b, hfor, hb⟩ := hs
  have hsize := size_le pg
  have hset : setup pg h ok₀ = (some h, h) := if_neg (by omega)
  have htake : ∀ g : Heap, g.nextf b ≠ 0 → (take g b).1 ≠ none := by
    intro g hg
    rw [take, if_neg hg]
    exact Option.some_ne_none _
  unfold malloc
  simp only [hset, hfor]
  by_cases hnext : h.nextf b = 0
  · rw [if_pos hnext]
    apply htake
    obtain ⟨l, hl, hi₁, -⟩ := morecore_spec hi
      (by have hc := hi.chain b; rw [hnext] at hc; exact hc.eq_nil) hpage
      (hb.resolve_left (not_not.mpr hnext))
    obtain ⟨a, l, rfl⟩ := List.exists_cons_of_ne_nil hl
    have hc := hi₁.chain b
    rw [update_self] at hc
    rw [hc.1]
    exact hc.2.1
  · rw [if_neg hnext]
    exact htake h hnext

/-! ## `realloc` -/

theorem capacity_eq (pg : PageSize) {b : ℕ} (hb : b < 28) :
    capacity pg.size b + overhead = blockSize pg b := by
  have hsize := size_le pg
  have hpos : 2 ^ 3 ≤ 2 ^ (b + 3) := two_pow_le (by omega)
  have hmod : (b + 3) % 32 = b + 3 := Nat.mod_eq_of_lt (by omega)
  have hiff := @lt_size pg b
  simp only [capacity, hmod, blockSize, overhead]
  by_cases hlt : b < pg.bucket
  · have hlt' := hiff.mpr hlt
    rw [if_pos hlt, if_pos hlt']
    omega
  · have hlt' := mt hiff.mp hlt
    rw [if_neg hlt, if_neg hlt']
    omega

/-- The memory of a live block is below the break, and in no free header. -/
theorem Inv.data (hi : Inv pg h live F) {y : Block} (hy : y ∈ live) {k : ℕ} (hk : k < y.req) :
    y.cp + k < h.brk ∧ ∀ b, ∀ a ∈ F b, ¬ (a ≤ y.cp + k ∧ y.cp + k < a + 4) := by
  obtain ⟨hcp, hpos⟩ := hi.op_cp hy
  have hroom := hi.room y hy
  have hend := (hi.place (place_live hy)).2.1
  refine ⟨by omega, ?_⟩
  intro b a ha
  have hapart := hi.apart (place_live hy) (.inr ha) (.inl (hi.live_ne_free hy ha))
  have hge := blockSize_ge pg b
  omega

/-- Live blocks lie apart. -/
theorem Inv.live_apart (hi : Inv pg h live F) {x y : Block} (hx : x ∈ live) (hy : y ∈ live)
    (hne : x ≠ y) : x.op + blockSize pg x.bucket ≤ y.op ∨ y.op + blockSize pg y.bucket ≤ x.op :=
  hi.apart (place_live hx) (place_live hy)
    (.inl fun he => hne (List.inj_on_of_nodup_map hi.nodupLive hx hy he))

/-- Another size for a block that has room for it. -/
theorem Inv.resize (hi : Inv pg h live F) {x : Block} (hx : x ∈ live) {nbytes : ℕ}
    (hn : nbytes + overhead ≤ blockSize pg x.bucket) :
    Inv pg h ({ x with req := nbytes } :: live.erase x) F := by
  have hperm := List.perm_cons_erase hx
  have hplace : ∀ {a b}, Place ({ x with req := nbytes } :: live.erase x) F a b →
      Place live F a b := by
    rintro a b (⟨y, hy, rfl, rfl⟩ | hfree)
    · obtain rfl | hy := List.mem_cons.mp hy
      · exact (place_live hx : Place live F x.op x.bucket)
      · exact place_live (List.mem_of_mem_erase hy)
    · exact .inr hfree
  constructor
  · obtain ⟨-, h₁⟩ | h₀ := hi.page
    · rw [h₁] at hx
      cases hx
    · exact .inr h₀
  · exact hi.chain
  · intro a b hp
    exact hi.place (hplace hp)
  · intro a b a' b' h₁ h₂ hne
    exact hi.apart (hplace h₁) (hplace h₂) hne
  · exact hi.nodup
  · exact (hperm.map Block.op).nodup_iff.mp hi.nodupLive
  · intro y hy
    obtain rfl | hy := List.mem_cons.mp hy
    · exact hi.split x hx
    · exact hi.split y (List.mem_of_mem_erase hy)
  · intro y hy
    obtain rfl | hy := List.mem_cons.mp hy
    · exact hi.header x hx
    · exact hi.header y (List.mem_of_mem_erase hy)
  · intro y hy
    obtain rfl | hy := List.mem_cons.mp hy
    · exact hn
    · exact hi.room y (List.mem_of_mem_erase hy)
  · exact hi.zero
  · exact hi.brk

/-- The request stays in its block. -/
def Stays (pagesz b nbytes : ℕ) : Prop := nbytes ≤ capacity pagesz b ∧ nbytes > lowerBound pagesz b

theorem Inv.at_eq (hi : Inv pg h live F) {x : Block} (hx : x ∈ live) (nbytes : ℕ) :
    Block.at h x.cp nbytes = { x with req := nbytes } := by
  have hb := hi.header_toNat hx
  unfold Block.op at hb
  simp only [Block.at, hb]

/-- A write inside a live block. -/
theorem Inv.write (hi : Inv pg h live F) {x : Block} (hx : x ∈ live) {m : ByteMem}
    (hm : ∀ j, ¬ (x.cp ≤ j ∧ j < x.cp + x.req) → m j = h.mem j) :
    Inv pg { h with mem := m } live F := by
  obtain ⟨hcp, hpos⟩ := hi.op_cp hx
  have hroom := hi.room x hx
  have hend := (hi.place (place_live hx)).2.1
  unfold overhead at hcp hroom
  apply hi.mem_congr
  · intro b a ha j h₁ h₂
    have hapart := hi.apart (place_live hx) (.inr ha) (.inl (hi.live_ne_free hx ha))
    have hge := blockSize_ge pg b
    exact hm j (by omega)
  · intro y hy j h₁ h₂
    by_cases hyx : y = x
    · subst hyx
      exact hm j (by omega)
    · have hapart := hi.live_apart hx hy (Ne.symm hyx)
      have hge := blockSize_ge pg y.bucket
      exact hm j (by omega)
  · intro j hj
    exact hm j (by omega)

theorem bcopy_apply (m : ByteMem) (src dst : ℕ) {n k : ℕ} (hk : k < n) :
    bcopy m src dst n (dst + k) = m (src + k) := by
  rw [bcopy, if_pos ⟨Nat.le_add_right dst k, Nat.add_lt_add_left hk dst⟩, Nat.add_sub_cancel_left]

/-- `realloc` of a live block that stays, or for which there is memory. The block moves or stays,
with the bytes that it had as far as they were asked for again, and the other blocks keep
theirs. -/
theorem realloc_spec (hi : Inv pg h live F) {x : Block} (hx : x ∈ live) {nbytes : ℕ}
    (srchlen : ℕ) (ok₀ : Bool) {ok₁ : Bool}
    (hs : Stays h.pagesz x.bucket nbytes ∨
      Ready pg h.pagesz h.pagebucket nbytes ∧ Served (free h x.cp) nbytes ok₁) :
    ∃ h', ∃ z : Block, realloc pg h srchlen (some x.cp) nbytes ok₀ ok₁ = (some z.cp, h') ∧
      Block.at h' z.cp nbytes = z ∧ z.req = nbytes ∧
      (∃ F', Inv pg h' (z :: live.erase x) F') ∧
      (∀ k, k < min x.req nbytes → h'.mem (z.cp + k) = h.mem (x.cp + k)) ∧
      ∀ y ∈ live.erase x, ∀ k, k < y.req → h'.mem (y.cp + k) = h.mem (y.cp + k) := by
  have hpage : h.pagesz = pg.size := by
    refine hi.page.resolve_left ?_
    rintro ⟨-, h₁⟩
    rw [h₁] at hx
    cases hx
  have hbucket := (hi.place (place_live hx)).2.2
  have hcap := capacity_eq pg hbucket
  have hmagic : h.mem (x.cp - overhead) = magic := (hi.header x hx).1
  have hidx : (h.mem (x.cp - overhead + 1)).toNat = x.bucket := hi.header_toNat hx
  have hroomx := hi.room x hx
  simp only [realloc, hmagic, hidx, if_true, true_and]
  by_cases hstay : nbytes ≤ capacity h.pagesz x.bucket ∧ nbytes > lowerBound h.pagesz x.bucket
  · rw [if_pos hstay]
    refine ⟨h, { x with req := nbytes }, rfl, hi.at_eq hx nbytes, rfl, ⟨F, hi.resize hx ?_⟩,
      fun _ _ => rfl, fun _ _ _ _ => rfl⟩
    have hle := hstay.1
    rw [hpage] at hle
    omega
  rw [if_neg hstay]
  obtain ⟨hready, hserved⟩ := hs.resolve_left hstay
  obtain ⟨hi₁, hbrk₁, hpagesz₁, hpagebucket₁, -, hm₁⟩ := free_spec hi hx
  generalize hfree : free h x.cp = h₁ at *
  have hnone := malloc_ne_none hi₁ ok₀ (hpagesz₁.trans hpage) hserved
  rw [← hpagesz₁, ← hpagebucket₁] at hready
  obtain ⟨h₂, hm₂, ⟨hrun, -⟩ | ⟨z, hreq, hrun, hat, F₂, hi₂⟩⟩ := malloc_spec hi₁ ok₀ ok₁ hready
  · rw [hrun] at hnone
    exact absurd rfl hnone
  have hz : z ∈ z :: live.erase x := List.mem_cons_self
  obtain ⟨hzcp, hzpos⟩ := hi₂.op_cp hz
  have hroomz := hi₂.room z hz
  obtain ⟨hxcp, hxpos⟩ := hi.op_cp hx
  have hxend := (hi.place (place_live hx)).2.1
  unfold overhead at hroomx hroomz hzcp hxcp hcap
  -- neither the release nor the allocation touches the bytes of the block
  have hold : ∀ k, k < x.req → h₂.mem (x.cp + k) = h.mem (x.cp + k) := by
    intro k hk
    rw [hm₂ (x.cp + k), hm₁ (x.cp + k) (by omega)]
    · omega
    · intro b a ha
      by_cases hax : a = x.op
      · omega
      · have hplx : Place (live.erase x) (update F x.bucket (x.op :: F x.bucket)) x.op x.bucket := by
          right
          rw [update_self]
          exact List.mem_cons_self
        have hapart := hi₁.apart hplx (.inr ha) (.inl (Ne.symm hax))
        have hge := blockSize_ge pg b
        omega
  have hothers : ∀ y ∈ live.erase x, ∀ k, k < y.req → h₂.mem (y.cp + k) = h.mem (y.cp + k) := by
    intro y hy k hk
    obtain ⟨hlt, hnot⟩ := hi₁.data hy hk
    rw [hm₂ _ hlt hnot]
    apply hm₁
    exact hnot x.bucket x.op (by rw [update_self]; exact List.mem_cons_self)
  simp only [hrun]
  by_cases hcp : x.cp ≠ z.cp
  · rw [if_pos hcp]
    have hlen : min nbytes (capacity h.pagesz x.bucket) ≤ z.req := by omega
    have hframe : ∀ j, ¬ (z.cp ≤ j ∧ j < z.cp + z.req) →
        bcopy h₂.mem x.cp z.cp (min nbytes (capacity h.pagesz x.bucket)) j = h₂.mem j := by
      intro j hj
      rw [bcopy, if_neg (by omega)]
    have hi₃ := hi₂.write hz hframe
    refine ⟨_, z, rfl, ?_, hreq, ⟨F₂, hi₃⟩, ?_, ?_⟩
    · rw [hi₃.at_eq hz, ← hreq]
    · intro k hk
      have hlt : k < min nbytes (capacity h.pagesz x.bucket) := by
        rw [hpage]
        omega
      exact (bcopy_apply _ _ _ hlt).trans (hold k (by omega))
    · intro y hy k hk
      have hyz : y ≠ z := by
        rintro rfl
        have hnd := hi₂.nodupLive
        rw [List.map_cons, List.nodup_cons] at hnd
        exact hnd.1 (List.mem_map_of_mem hy)
      have hy₂ : y ∈ z :: live.erase x := List.mem_cons_of_mem z hy
      have hapart := hi₂.live_apart hz hy₂ (Ne.symm hyz)
      obtain ⟨hycp, hypos⟩ := hi₂.op_cp hy₂
      have hroomy := hi₂.room y hy₂
      unfold overhead at hycp hroomy
      exact (hframe _ (by omega)).trans (hothers y hy k hk)
  · rw [if_neg hcp]
    refine ⟨h₂, z, rfl, ?_, hreq, ⟨F₂, hi₂⟩, ?_, hothers⟩
    · rw [hreq] at *
      exact hat
    · intro k hk
      rw [← not_not.mp hcp]
      exact hold k (by omega)

/-! ## Runs -/

/-- The block or the list that it goes to after its release has a free block for the request, or
there is memory for one. -/
def ServedAfter (h : Heap) (x : Block) (nbytes : ℕ) (ok : Bool) : Prop :=
  ∃ b, bucketFor h.pagesz h.pagebucket nbytes = some b ∧
    (b = x.bucket ∨ h.nextf b ≠ 0 ∨ Supplied h b ok)

/-- A request of more than a page comes after a setup that was completed; a block that has to move
finds memory. -/
def Act.Sound (pg : PageSize) (s : State) : Act → Prop
  | .malloc nbytes _ _ => Ready pg s.heap.pagesz s.heap.pagebucket nbytes
  | .realloc none nbytes _ _ => Ready pg s.heap.pagesz s.heap.pagebucket nbytes
  | .realloc (some x) nbytes _ ok₁ => Stays s.heap.pagesz x.bucket nbytes ∨
    Ready pg s.heap.pagesz s.heap.pagebucket nbytes ∧ ServedAfter s.heap x nbytes ok₁
  | _ => True

/-- The live block that an action is about. -/
def Act.target : Act → Option Block
  | .malloc _ _ _ => none
  | .free x => some x
  | .realloc x _ _ _ => x
  | .write x _ _ => some x

/-- Live blocks lie apart and are large enough, below the break; the free lists are threaded
through memory, and no free block overlaps a live one. -/
structure Safe (pg : PageSize) (s : State) : Prop where
  apart : s.live.Pairwise fun x y =>
    x.op + blockSize pg x.bucket ≤ y.op ∨ y.op + blockSize pg y.bucket ≤ x.op
  room : ∀ x ∈ s.live, x.cp + x.req ≤ x.op + blockSize pg x.bucket ∧
    x.op + blockSize pg x.bucket ≤ s.heap.brk
  free : ∃ F : ℕ → List ℕ, (∀ b, s.heap.mem.Chain (s.heap.nextf b) (F b)) ∧
    ∀ x ∈ s.live, ∀ b, ∀ a ∈ F b,
      x.op + blockSize pg x.bucket ≤ a ∨ a + blockSize pg b ≤ x.op

/-- The action leaves the blocks that it is not about; `realloc` keeps the bytes of its block as
far as they were asked for again, and a `realloc` that fails leaves its block. -/
structure Keeps (s : State) (act : Act) (v : Option ℕ) (s' : State) : Prop where
  others : ∀ y ∈ s.live, act.target ≠ some y → y ∈ s'.live ∧
    ∀ k, k < y.req → s'.heap.mem (y.cp + k) = s.heap.mem (y.cp + k)
  moved : ∀ x nbytes ok₀ ok₁ cp, act = .realloc (some x) nbytes ok₀ ok₁ → v = some cp →
    ∀ k, k < min x.req nbytes → s'.heap.mem (cp + k) = s.heap.mem (x.cp + k)
  failed : ∀ x nbytes ok₀ ok₁, act = .realloc (some x) nbytes ok₀ ok₁ → v = none →
    x ∈ s'.live ∧ ∀ k, k < x.req → s'.heap.mem (x.cp + k) = s.heap.mem (x.cp + k)

theorem Inv.safe {s : State} (hi : Inv pg s.heap s.live F) : Safe pg s where
  apart := by
    have hnd : s.live.Nodup := .of_map _ hi.nodupLive
    exact hnd.imp_of_mem fun hx hy hne => hi.live_apart hx hy hne
  room x hx := by
    obtain ⟨hcp, -⟩ := hi.op_cp hx
    have hroom := hi.room x hx
    exact ⟨by omega, (hi.place (place_live hx)).2.1⟩
  free := by
    refine ⟨F, hi.chain, ?_⟩
    intro x hx b a ha
    exact hi.apart (place_live hx) (.inr ha) (.inl (hi.live_ne_free hx ha))

theorem Inv.served (hi : Inv pg h live F) {x : Block} (hx : x ∈ live) {nbytes : ℕ} {ok : Bool}
    (hs : ServedAfter h x nbytes ok) : Served (free h x.cp) nbytes ok := by
  obtain ⟨b, hfor, hb⟩ := hs
  obtain ⟨-, hbrk, hpagesz, hpagebucket, hnextf, -⟩ := free_spec hi hx
  refine ⟨b, by rw [hpagesz, hpagebucket, hfor], ?_⟩
  by_cases hbx : b = x.bucket
  · left
    rw [hnextf, hbx, update_self]
    exact Nat.pos_iff_ne_zero.mp (hi.op_cp hx).2
  · obtain hb | hb := hb.resolve_left hbx
    · left
      rwa [hnextf, update_of_ne hbx]
    · right
      rwa [Supplied, hbrk, hpagesz]

/-- `malloc` as a step, also when `realloc` calls it for a null pointer. -/
theorem malloc_step {s : State} (hi : Inv pg s.heap s.live F) {nbytes : ℕ} {ok₀ ok₁ : Bool}
    (hready : Ready pg s.heap.pagesz s.heap.pagebucket nbytes) {v : Option ℕ} {h' : Heap}
    (hrun : malloc pg s.heap nbytes ok₀ ok₁ = (v, h')) :
    (∀ y ∈ s.live, ∀ k, k < y.req → h'.mem (y.cp + k) = s.heap.mem (y.cp + k)) ∧
      (v = none → ∃ F', Inv pg h' s.live F') ∧
      ∀ cp, v = some cp → ∃ F', Inv pg h' (.at h' cp nbytes :: s.live) F' := by
  obtain ⟨h₁, hm, hcase⟩ := malloc_spec hi ok₀ ok₁ hready
  have hdata : ∀ y ∈ s.live, ∀ k, k < y.req → h₁.mem (y.cp + k) = s.heap.mem (y.cp + k) := by
    intro y hy k hk
    obtain ⟨hlt, hnot⟩ := hi.data hy hk
    exact hm _ hlt hnot
  obtain ⟨hrun', hF⟩ | ⟨x, -, hrun', hat, hF⟩ := hcase
  · rw [hrun] at hrun'
    cases hrun'
    exact ⟨hdata, fun _ => hF, nofun⟩
  · rw [hrun] at hrun'
    cases hrun'
    refine ⟨hdata, nofun, ?_⟩
    intro cp hcp
    cases hcp
    rw [hat]
    exact hF

theorem step_spec {s s' : State} {act : Act} {v : Option ℕ} {srchlen : ℕ}
    (hi : Inv pg s.heap s.live F) (hs : act.Sound pg s) (h : Step pg srchlen s act v s') :
    (∃ F', Inv pg s'.heap s'.live F') ∧ Keeps s act v s' := by
  cases h with
  | mallocNull nbytes ok₀ ok₁ h' hn hrun =>
    obtain ⟨hdata, hnull, -⟩ := malloc_step hi hs hrun
    exact ⟨hnull rfl, fun y hy _ => ⟨hy, hdata y hy⟩, nofun, nofun⟩
  | malloc nbytes ok₀ ok₁ h' cp hn hrun =>
    obtain ⟨hdata, -, hsome⟩ := malloc_step hi hs hrun
    refine ⟨hsome cp rfl, fun y hy _ => ⟨List.mem_cons_of_mem _ hy, hdata y hy⟩, nofun, nofun⟩
  | free x hx =>
    obtain ⟨hi', -, -, -, -, hm⟩ := free_spec hi hx
    refine ⟨⟨_, hi'⟩, ?_, nofun, nofun⟩
    intro y hy hne
    have hyx : y ≠ x := fun he => hne (he ▸ rfl)
    have hy' : y ∈ s.live.erase x := (List.mem_erase_of_ne hyx).mpr hy
    refine ⟨hy', ?_⟩
    intro k hk
    apply hm
    have hnot := (hi'.data hy' hk).2 x.bucket x.op
    exact hnot (by rw [update_self]; exact List.mem_cons_self)
  | reallocNull x nbytes ok₀ ok₁ h' hx hn hrun =>
    cases x with
    | none =>
      obtain ⟨hdata, hnull, -⟩ := malloc_step hi hs hrun
      exact ⟨hnull rfl, fun y hy _ => ⟨hy, hdata y hy⟩, nofun, nofun⟩
    | some x =>
      have hx' : x ∈ s.live := hx x rfl
      obtain ⟨h₁, z, hrun', -⟩ := realloc_spec hi hx' srchlen ok₀
        (hs.imp_right fun hr => ⟨hr.1, hi.served hx' hr.2⟩)
      rw [Option.map_some] at hrun
      rw [hrun] at hrun'
      cases hrun'
  | realloc x nbytes ok₀ ok₁ h' cp hx hn hrun =>
    cases x with
    | none =>
      obtain ⟨hdata, -, hsome⟩ := malloc_step hi hs hrun
      refine ⟨hsome cp rfl, fun y hy _ => ⟨List.mem_cons_of_mem _ hy, hdata y hy⟩, nofun, nofun⟩
    | some x =>
      have hx' : x ∈ s.live := hx x rfl
      obtain ⟨h₁, z, hrun', hat, hreq, hF, hmoved, hothers⟩ := realloc_spec hi hx' srchlen ok₀
        (hs.imp_right fun hr => ⟨hr.1, hi.served hx' hr.2⟩)
      rw [Option.map_some] at hrun
      rw [hrun] at hrun'
      cases hrun'
      refine ⟨?_, ?_, ?_, nofun⟩
      · simp only [hat]
        exact hF
      · intro y hy hne
        have hyx : y ≠ x := fun he => hne (he ▸ rfl)
        have hy' : y ∈ s.live.erase x := (List.mem_erase_of_ne hyx).mpr hy
        exact ⟨List.mem_cons_of_mem _ hy', hothers y hy'⟩
      · intro x₁ n₁ o₀ o₁ cp₁ he hv
        cases he
        cases hv
        exact hmoved
  | write x k v hx hk =>
    have hframe : ∀ j, ¬ (x.cp ≤ j ∧ j < x.cp + x.req) →
        s.heap.mem.put8 (x.cp + k) v j = s.heap.mem j := by
      intro j hj
      exact put8_of_ne (by omega) v
    refine ⟨⟨F, hi.write hx hframe⟩, ?_, nofun, nofun⟩
    intro y hy hne
    have hyx : y ≠ x := fun he => hne (he ▸ rfl)
    refine ⟨hy, ?_⟩
    intro i hik
    apply hframe
    have hapart := hi.live_apart hx hy (Ne.symm hyx)
    obtain ⟨hxcp, -⟩ := hi.op_cp hx
    obtain ⟨hycp, -⟩ := hi.op_cp hy
    have hxroom := hi.room x hx
    have hyroom := hi.room y hy
    unfold overhead at *
    omega

theorem init_inv (m : ByteMem) {brk : ℕ} (hpos : 0 < brk) (hlt : brk < 2 ^ 32)
    (hm : ∀ a, brk ≤ a → m a = 0) : Inv pg ⟨0, 0, fun _ => 0, m, brk⟩ [] fun _ => [] where
  page := .inl ⟨rfl, rfl⟩
  chain _ := rfl
  place := by
    rintro a b (⟨x, hx, -⟩ | hfree)
    · cases hx
    · cases hfree
  apart := by
    rintro a b a' b' (⟨x, hx, -⟩ | hfree)
    · cases hx
    · cases hfree
  nodup _ := List.nodup_nil
  nodupLive := List.nodup_nil
  split _ hx := nomatch hx
  header _ hx := nomatch hx
  room _ hx := nomatch hx
  zero := hm
  brk := ⟨hpos, hlt⟩

/-- In a run of sound actions the heap is safe in every state, and every sound action from it keeps
what it has to keep. -/
theorem heap_safe {s : State} {srchlen : ℕ}
    (h : Reached pg srchlen (fun s act => act.Sound pg s) s) : Safe pg s ∧
      ∀ act v s', act.Sound pg s → Step pg srchlen s act v s' → Keeps s act v s' := by
  have hi : ∃ F, Inv pg s.heap s.live F := by
    induction h with
    | init m brk hpos hlt hm => exact ⟨_, init_inv m hpos hlt hm⟩
    | step _ hstep hP ih =>
      obtain ⟨F, hF⟩ := ih
      exact (step_spec hF hP hstep).1
  obtain ⟨F, hF⟩ := hi
  exact ⟨hF.safe, fun act v s' hs hstep => (step_spec hF hs hstep).2⟩

/-- Pages of 4096 bytes. -/
def page4k : PageSize := ⟨9, by decide, by decide⟩

/-- The heap of a program that has not called `malloc` yet. -/
def emptyHeap (brk : ℕ) : Heap := ⟨0, 0, fun _ => 0, fun _ => 0, brk⟩

/-- The heap after a first `malloc(4000)`. -/
def firstHeap : Heap := (malloc page4k (emptyHeap 4092) 4000 true true).2

/-- The heap after `realloc` of this block to 9000 bytes, for which it has to move. -/
def movedHeap (ok : Bool) : Heap :=
  (realloc page4k firstHeap 4 (some 4096) 9000 true ok).2

theorem reached_firstHeap {P : State → Act → Prop}
    (hP : P ⟨emptyHeap 4092, []⟩ (.malloc 4000 true true)) :
    Reached page4k 4 P ⟨firstHeap, [⟨4096, 9, 4000⟩]⟩ := by
  have h₀ : Reached page4k 4 P ⟨emptyHeap 4092, []⟩ :=
    .init (fun _ => 0) 4092 (by decide) (by decide) fun _ _ => rfl
  exact h₀.step (.malloc 4000 true true firstHeap 4096 (by decide) (Prod.ext (by decide) rfl)) hP

theorem heap_safe_moved : Safe page4k ⟨movedHeap true, [⟨12288, 10, 9000⟩]⟩ ∧
    ∀ act v s', act.Sound page4k ⟨movedHeap true, [⟨12288, 10, 9000⟩]⟩ →
      Step page4k 4 ⟨movedHeap true, [⟨12288, 10, 9000⟩]⟩ act v s' →
        Keeps ⟨movedHeap true, [⟨12288, 10, 9000⟩]⟩ act v s' := by
  have hserved : ServedAfter firstHeap ⟨4096, 9, 4000⟩ 9000 true :=
    ⟨10, by decide, .inr (.inr (by unfold Supplied; decide))⟩
  have h₂ : Reached page4k 4 (fun s act => act.Sound page4k s)
      ⟨movedHeap true, [⟨12288, 10, 9000⟩]⟩ :=
    (reached_firstHeap (.inl rfl)).step (.realloc (some ⟨4096, 9, 4000⟩) 9000 true true
      (movedHeap true) 12288 (by simp) (by decide) (Prod.ext (by decide) rfl))
      (.inr ⟨.inr (.inl (by decide)), hserved⟩)
  exact heap_safe h₂

/-- A `realloc` without memory returns null and has freed the block: the next `malloc` returns the
block again. -/
theorem not_heap_safe : ∃ s, Reached page4k 4 (fun _ _ => True) s ∧ ¬ Safe page4k s := by
  have h₁ : Reached page4k 4 (fun _ _ => True) ⟨firstHeap, [⟨4096, 9, 4000⟩]⟩ :=
    reached_firstHeap trivial
  have h₂ : Reached page4k 4 (fun _ _ => True) ⟨movedHeap false, [⟨4096, 9, 4000⟩]⟩ :=
    h₁.step (.reallocNull (some ⟨4096, 9, 4000⟩) 9000 true false (movedHeap false) (by simp)
      (by decide) (Prod.ext (by decide) rfl)) trivial
  have h₃ : Reached page4k 4 (fun _ _ => True)
      ⟨(malloc page4k (movedHeap false) 4000 true true).2, [⟨4096, 9, 4000⟩, ⟨4096, 9, 4000⟩]⟩ :=
    h₂.step (.malloc 4000 true true _ 4096 (by decide) (Prod.ext (by decide) rfl)) trivial
  refine ⟨_, h₃, ?_⟩
  intro hsafe
  have hapart := hsafe.apart
  revert hapart
  decide

/-- A first `malloc` that could not align the break leaves the bucket of a page at zero: a request
of two megabytes gets a block of two pages. -/
theorem not_heap_safe_setup :
    ∃ s, Reached page4k 4 (fun _ _ => True) s ∧ ¬ Safe page4k s := by
  have h₀ : Reached page4k 4 (fun _ _ => True) ⟨emptyHeap 8, []⟩ :=
    .init (fun _ => 0) 8 (by decide) (by decide) fun _ _ => rfl
  have h₁ : Reached page4k 4 (fun _ _ => True)
      ⟨(malloc page4k (emptyHeap 8) 4 false true).2, []⟩ :=
    h₀.step (.mallocNull 4 false true _ (by decide) (Prod.ext (by decide) rfl)) trivial
  have h₂ : Reached page4k 4 (fun _ _ => True)
      ⟨(malloc page4k (malloc page4k (emptyHeap 8) 4 false true).2 2097152 true true).2,
        [⟨12, 9, 2097152⟩]⟩ :=
    h₁.step (.malloc 2097152 true true _ 12 (by decide) (Prod.ext (by decide) rfl)) trivial
  refine ⟨_, h₂, ?_⟩
  intro hsafe
  have hroom := (hsafe.room _ List.mem_cons_self).1
  revert hroom
  decide

end Malloc
