import Krio.Lib.Cut
import Krio.Lib.Ring
import Krio.Parallel.Deque

/-! What holds of a deque while its owner is in `push` or `pop` and thieves are in `steal`.

The values that are in the deque form a list, from `top` on. `push` appends to it when it publishes, `pop`
takes from its end when it finds more than one value or wins the race for the last one, and a thief takes
its head when its claim succeeds. A thief may have loaded an old `top`; then its claim fails, unless the
index space was gone through once in the meantime. -/

namespace Krio.Parallel
open Lib

/-- Where the owner of a deque is. -/
inductive OwnerPc (w : ℕ) (α : Type)
  | idle
  | push (v : α) (pc : Deque.PushPc w)
  | pop (pc : Deque.PopPc w)
  deriving DecidableEq

/-- Outside `push` and `pop`, or at their first step. -/
def OwnerPc.resting {w : ℕ} {α : Type} : OwnerPc w α → Bool
  | .idle | .push _ .loadBottom | .pop .loadBottom => true
  | _ => false

namespace Deque
variable {w : ℕ} {α : Type}

/-- The capacity of a deque is a power of two, at least 2, and at most a quarter of the index space. -/
structure Sized (d : Deque w α) : Prop where
  pow : ∃ k, 1 ≤ k ∧ k + 2 ≤ w ∧ d.capacity = 2 ^ k

/-- The index that is `n` after `top`. -/
def after (d : Deque w α) (n : ℕ) : BitVec w := d.top + BitVec.ofNat w n

/-- What the owner knows, when the deque holds `live`. -/
def OwnerOk (d : Deque w α) (live : List α) : OwnerPc w α → Prop
  | .idle | .push _ .loadBottom | .pop .loadBottom => d.bottom = d.after live.length
  | .push _ (.loadTop b) => d.bottom = d.after live.length ∧ b = d.bottom
  | .push _ (.write b) => d.bottom = d.after live.length ∧ b = d.bottom ∧ live.length < d.capacity
  | .push v (.publish b) =>
    d.bottom = d.after live.length ∧ b = d.bottom ∧ live.length < d.capacity ∧ d.read b = some v
  | .pop (.claim b) => d.bottom = d.after live.length ∧ b + 1 = d.bottom
  | .pop (.loadTop b) => d.bottom = b ∧ b + 1 = d.after live.length
  | .pop (.restore b) => d.bottom = b ∧ b + 1 = d.after live.length ∧ live = []
  | .pop (.race b t) => d.bottom = b ∧ b + 1 = d.after live.length ∧ t = b ∧ live.length ≤ 1
  | .pop (.settle b won) => d.bottom = b ∧ b + 1 = d.after live.length ∧ live = [] ∧ (won = true → (d.read b).isSome)
  | .pop (.take b) => d.bottom = d.after live.length ∧ (d.read b).isSome

/-- The value that the owner has taken out and not yet returned. -/
def hand (d : Deque w α) : OwnerPc w α → List α
  | .pop (.settle b true) | .pop (.take b) => (d.read b).toList
  | _ => []

/-- The end of what is in the deque; in the middle of `pop`, `bottom` is one before it. -/
def upper (d : Deque w α) : OwnerPc w α → BitVec w
  | .pop (.loadTop _) | .pop (.restore _) | .pop (.race _ _) | .pop (.settle _ _) => d.bottom + 1
  | _ => d.bottom

/-- The values in the deque, from `top` on. -/
def live (d : Deque w α) (o : OwnerPc w α) : List α :=
  (List.range (d.upper o - d.top).toNat).filterMap fun i => d.read (d.top + BitVec.ofNat w i)

/-- What a thief knows. If `top` has not moved since the thief loaded it, the thief has the current
    `top`, and then, once it saw `bottom`, the deque is not empty, and the value it read is the first. -/
def ThiefOk (d : Deque w α) (live : List α) : StealPc w α → Prop
  | .loadTop => True
  | .loadBottom t seen => seen ≤ d.wins ∧ d.top = t + BitVec.ofNat w (d.wins - seen)
  | .read t seen => seen ≤ d.wins ∧ d.top = t + BitVec.ofNat w (d.wins - seen) ∧ (seen = d.wins → live ≠ [])
  | .claim t seen value =>
    seen ≤ d.wins ∧ d.top = t + BitVec.ofNat w (d.wins - seen) ∧ (seen = d.wins → live ≠ [] ∧ value = live.head?)

/-- At a thief's claim, `top` has moved less than once through the index space since the thief loaded it. -/
def inTime (d : Deque w α) : StealPc w α → Bool
  | .claim _ seen _ => decide (d.wins < seen + 2 ^ w)
  | _ => true

/-- The invariant of a deque that holds `live`, with its owner at `o` and thieves `th`. -/
structure Inv {ι : Type} (d : Deque w α) (live : List α) (o : OwnerPc w α) (th : ι → Option (StealPc w α)) : Prop where
  sized : d.Sized
  bounded : live.length ≤ d.capacity
  slots : ∀ i x, live[i]? = some x → d.read (d.after i) = some x
  owner : d.OwnerOk live o
  thieves : ∀ k pc, th k = some pc → d.ThiefOk live pc

/-- The values in slots `top` to `bottom`. -/
def contents (d : Deque w α) : List (Option α) := (List.range (d.bottom - d.top).toNat).map fun i => d.read (d.after i)

/-! ### Indices and slots -/

section
variable {d d' : Deque w α} {live l : List α} {i j b : BitVec w} {v x : α} {m n : ℕ}

theorem Sized.of_buf (h : d.Sized) (hb : d'.buf.length = d.buf.length) : d'.Sized := by
  obtain ⟨k, h₁, h₂, hk⟩ := h.pow
  exact ⟨⟨k, h₁, h₂, hb.trans hk⟩⟩

/-- Distances up to the capacity are far from the sign bit. -/
theorem Sized.lt (h : d.Sized) (hn : n ≤ d.capacity) : n < 2 ^ (w - 1) := by
  obtain ⟨k, -, hw, hk⟩ := h.pow
  have : 2 ^ k < 2 ^ (w - 1) := Nat.pow_lt_pow_right (by decide) (by omega)
  omega

theorem Sized.toInt (h : d.Sized) (hn : n ≤ d.capacity) : (BitVec.ofNat w n).toInt = n := toInt_ofNat_of_lt (h.lt hn)

theorem Sized.pos (h : d.Sized) : 0 < w := by
  obtain ⟨k, -, hw, -⟩ := h.pow
  omega

theorem after_zero (d : Deque w α) : d.after 0 = d.top := by simp [after]

theorem after_succ (d : Deque w α) (n : ℕ) : d.after (n + 1) = d.after n + 1 := by
  rw [after, after, BitVec.ofNat_add, ← BitVec.add_assoc]
  rfl

/-- Counting from `top` after it has moved. -/
theorem after_advance {e : Deque w α} (htop : e.top = d.top + 1) (n : ℕ) : e.after n = d.after (n + 1) := by
  rw [after_succ, after, after, htop, BitVec.add_assoc, BitVec.add_assoc, BitVec.add_comm 1]

theorem after_sub_top (d : Deque w α) (n : ℕ) : d.after n - d.top = BitVec.ofNat w n := by
  rw [after, BitVec.add_comm, BitVec.add_sub_cancel]

/-- The index before `after n`, counted from `top`. -/
theorem sub_top_of_succ (hb : b + 1 = d.after (n + 1)) : b - d.top = BitVec.ofNat w n := by
  rw [after_succ] at hb
  rw [show b = d.after n by grind, after_sub_top]

theorem sub_top_of_empty (hb : b + 1 = d.after 0) : b - d.top = -1 := by
  rw [after_zero] at hb
  grind

theorem slot_eq (h : d.Sized) (i : BitVec w) : d.slot i = i.toNat % d.capacity := by
  obtain ⟨k, -, hw, hk⟩ := h.pow
  rw [slot, mask, hk, toNat_and_mask (by omega)]

theorem slot_lt (h : d.Sized) (i : BitVec w) : d.slot i < d.buf.length := by
  rw [slot_eq h]
  obtain ⟨k, -, -, hk⟩ := h.pow
  exact Nat.mod_lt _ (hk ▸ Nat.two_pow_pos k)

/-- Values less than the capacity apart are in different slots. -/
theorem slot_after_ne (h : d.Sized) (hmn : m < n) (hn : n < m + d.capacity) : d.slot (d.after m) ≠ d.slot (d.after n) := by
  rw [slot_eq h, slot_eq h]
  obtain ⟨k, -, hw, hk⟩ := h.pow
  rw [hk] at hn ⊢
  exact slot_ne (by omega) d.top hmn hn

theorem read_write_self (h : d.Sized) : (d.write i v).read i = some v := by
  have hm : (d.write i v).slot i = d.slot i := by simp [slot, mask, capacity, write]
  rw [read, hm]
  simp [write, slot_lt h]

theorem read_write_of_ne (h : d.slot i ≠ d.slot j) : (d.write i v).read j = d.read j := by
  have hm : (d.write i v).slot j = d.slot j := by simp [slot, mask, capacity, write]
  rw [read, hm]
  simp [write, read, List.getElem?_set_ne h]

end

/-! ### The operations -/

section
variable {ι : Type} {d d' : Deque w α} {live l : List α} {o : OwnerPc w α} {th : ι → Option (StealPc w α)} {v x : α}

theorem capacityFor_pow (n : ℕ) : ∃ k, 1 ≤ k ∧ capacityFor n = 2 ^ k := by
  unfold capacityFor nextPowerOfTwo
  split
  · exact ⟨1, le_rfl, rfl⟩
  · refine ⟨(n - 1).log2 + 1, by omega, max_eq_left ?_⟩
    exact Nat.pow_le_pow_right Nat.two_pos (Nat.le_add_left 1 ((n - 1).log2))

/-- A new deque is empty, with its owner idle and nobody stealing. -/
theorem Inv.new {start : BitVec w} {cap : ℕ} (h : capacityFor cap ≤ 2 ^ (w - 2)) :
    Inv (withCapacity start cap : Deque w α) [] .idle fun _ : ι => none := by
  have hlen : (withCapacity start cap : Deque w α).capacity = capacityFor cap := by simp [withCapacity, capacity]
  obtain ⟨k, hk, hcap⟩ := capacityFor_pow cap
  have hw : k ≤ w - 2 := by
    rw [hcap] at h
    exact (Nat.pow_le_pow_iff_right (by decide)).mp h
  refine ⟨⟨⟨k, hk, by omega, hlen.trans hcap⟩⟩, Nat.zero_le _, by simp, ?_, by rintro k pc ⟨⟩⟩
  exact (after_zero (withCapacity start cap : Deque w α)).symm

theorem live_of_resting (ho : o.resting = true) : d.live o = d.live .idle := by
  unfold OwnerPc.resting at ho
  split at ho <;> first | rfl | cases ho

theorem hand_of_resting (ho : o.resting = true) : d.hand o = [] := by
  unfold OwnerPc.resting at ho
  split at ho <;> first | rfl | cases ho

/-- The owner starts or ends an operation. -/
theorem Inv.rest {o' : OwnerPc w α} (h : Inv d live o th) (ho : o.resting = true) (ho' : o'.resting = true) :
    Inv d live o' th := by
  refine ⟨h.sized, h.bounded, h.slots, ?_, h.thieves⟩
  have howner := h.owner
  unfold OwnerPc.resting at ho ho'
  split at ho <;> split at ho' <;> first | exact howner | contradiction

theorem OwnerOk.upper_eq (h : d.OwnerOk live o) : d.upper o = d.after live.length := by
  rcases o with _ | ⟨v, _ | _ | _ | _⟩ | (_ | _ | _ | _ | _ | _ | _)
  case pop.loadTop => exact h.1 ▸ h.2
  case pop.restore | pop.race | pop.settle => exact h.1 ▸ h.2.1
  case idle | push.loadBottom | pop.loadBottom => exact h
  all_goals exact h.1

theorem Inv.upper_sub (h : Inv d live o th) : (d.upper o - d.top).toNat = live.length := by
  rw [h.owner.upper_eq, after_sub_top, BitVec.toNat_ofNat, Nat.mod_eq_of_lt]
  exact (h.sized.lt h.bounded).trans_le (Nat.pow_le_pow_right (by decide) (Nat.sub_le w 1))

/-- A deque whose length reads zero while its owner is idle is empty. -/
theorem Inv.bottom_eq_top (h : Inv d live .idle th) (hlen : lenOf d.bottom d.top = 0) : d.bottom = d.top := by
  have hb : d.bottom = d.after live.length := h.owner
  have hzero : live.length = 0 := by
    rw [lenOf, hb, after_sub_top, h.sized.toInt h.bounded] at hlen
    omega
  rw [hb, hzero, after_zero]

/-- The values in a deque are determined by its slots. -/
theorem Inv.live_eq (h : Inv d live o th) : d.live o = live := by
  have hslot : ∀ i, i ∈ List.range live.length → d.read (d.top + BitVec.ofNat w i) = live[i]? := by
    intro i hi
    have hi' : i < live.length := List.mem_range.mp hi
    rw [List.getElem?_eq_getElem hi']
    exact h.slots i live[i] (List.getElem?_eq_getElem hi')
  rw [Deque.live, h.upper_sub, List.filterMap_congr hslot]
  exact filterMap_getElem?_range live

/-- What is in the slots when the owner is idle. -/
theorem Inv.contents_eq (h : Inv d live .idle th) : d.contents = live.map some := by
  have hlen : (d.bottom - d.top).toNat = live.length := h.upper_sub
  rw [contents, hlen]
  refine List.ext_getElem (by simp) fun i h₁ h₂ => ?_
  have hi : i < live.length := by simpa using h₂
  simpa using h.slots i live[i] (List.getElem?_eq_getElem hi)

/-- What a thief knows is kept while `top` and the first value stay. -/
theorem ThiefOk.frame {pc : StealPc w α} (h : d.ThiefOk live pc) (hwins : d'.wins = d.wins) (htop : d'.top = d.top)
    (hhead : live ≠ [] → l ≠ [] ∧ l.head? = live.head?) : d'.ThiefOk l pc := by
  cases pc with
  | loadTop => trivial
  | loadBottom t seen => simpa only [ThiefOk, hwins, htop] using h
  | read t seen =>
    simp only [ThiefOk, hwins, htop] at h ⊢
    exact ⟨h.1, h.2.1, fun hs => (hhead (h.2.2 hs)).1⟩
  | claim t seen value =>
    simp only [ThiefOk, hwins, htop] at h ⊢
    refine ⟨h.1, h.2.1, fun hs => ?_⟩
    obtain ⟨hne, hv⟩ := h.2.2 hs
    exact ⟨(hhead hne).1, hv.trans (hhead hne).2.symm⟩

/-- What a thief knows is kept when `top` moves: it is now late. -/
theorem ThiefOk.advance {pc : StealPc w α} (h : d.ThiefOk live pc) (hwins : d'.wins = d.wins + 1)
    (htop : d'.top = d.top + 1) : d'.ThiefOk l pc := by
  have late : ∀ {seen : ℕ} {t : BitVec w}, seen ≤ d.wins → d.top = t + BitVec.ofNat w (d.wins - seen) →
      seen ≤ d'.wins ∧ d'.top = t + BitVec.ofNat w (d'.wins - seen) ∧ seen ≠ d'.wins := by
    intro seen t hle ht
    rw [hwins, htop, ht, show d.wins + 1 - seen = d.wins - seen + 1 by omega, BitVec.ofNat_add, BitVec.add_assoc]
    exact ⟨by omega, rfl, by omega⟩
  cases pc with
  | loadTop => trivial
  | loadBottom t seen =>
    obtain ⟨h₁, h₂, -⟩ := late h.1 h.2
    exact ⟨h₁, h₂⟩
  | read t seen =>
    obtain ⟨h₁, h₂, h₃⟩ := late h.1 h.2.1
    exact ⟨h₁, h₂, fun hs => absurd hs h₃⟩
  | claim t seen value =>
    obtain ⟨h₁, h₂, h₃⟩ := late h.1 h.2.1
    exact ⟨h₁, h₂, fun hs => absurd hs h₃⟩

theorem Inv.push_next {pc pc' : PushPc w} (h : Inv d live (.push v pc) th) (he : d.push v pc = (d', .next pc')) :
    Inv d' live (.push v pc') th := by
  cases pc with
  | loadBottom =>
    cases he
    exact ⟨h.sized, h.bounded, h.slots, ⟨h.owner, rfl⟩, h.thieves⟩
  | loadTop b =>
    simp only [Deque.push] at he
    split at he <;> cases he
    rename_i hlt
    obtain ⟨hb, rfl⟩ := h.owner
    refine ⟨h.sized, h.bounded, h.slots, ⟨hb, rfl, ?_⟩, h.thieves⟩
    rw [hb, after_sub_top, h.sized.toInt h.bounded] at hlt
    omega
  | write b =>
    cases he
    obtain ⟨hb, rfl, hlt⟩ := h.owner
    have hsized : (d.write d.bottom v).Sized := h.sized.of_buf (by simp [write])
    refine ⟨hsized, by simpa [write, capacity] using h.bounded, ?_, ?_, fun k pc hk => (h.thieves k pc hk).frame rfl rfl fun h => ⟨h, rfl⟩⟩
    · intro i x hi
      have hil : i < live.length := (List.getElem?_eq_some_iff.mp hi).1
      have hne : d.slot d.bottom ≠ d.slot (d.after i) := by
        rw [hb]
        exact (slot_after_ne h.sized hil (by omega)).symm
      exact (read_write_of_ne hne).trans (h.slots i x hi)
    · exact ⟨hb, rfl, by simpa [write, capacity] using hlt, read_write_self h.sized⟩
  | publish b => cases he

theorem Inv.push_ret {pc : PushPc w} {ok : Bool} (h : Inv d live (.push v pc) th) (he : d.push v pc = (d', .ret ok)) :
    Inv d' (if ok then live ++ [v] else live) .idle th := by
  cases pc with
  | loadBottom => cases he
  | loadTop b =>
    simp only [Deque.push] at he
    split at he <;> cases he
    exact ⟨h.sized, h.bounded, h.slots, h.owner.1, h.thieves⟩
  | write b => cases he
  | publish b =>
    cases he
    obtain ⟨hb, rfl, hlt, hv⟩ := h.owner
    refine ⟨h.sized.of_buf rfl, ?_, ?_, ?_, fun k pc hk => (h.thieves k pc hk).frame rfl rfl ?_⟩
    · simpa [capacity, Nat.succ_le_iff] using hlt
    · intro i x hi
      simp only [↓reduceIte] at hi
      obtain hi' | hi' := Nat.lt_or_ge i live.length
      · rw [List.getElem?_append_left hi'] at hi
        exact h.slots i x hi
      · rw [List.getElem?_append_right hi'] at hi
        obtain ⟨hi₀, rfl⟩ : i - live.length = 0 ∧ v = x := by
          cases hd : i - live.length <;> simp_all
        obtain rfl : i = live.length := by omega
        exact hb ▸ hv
    · show d.bottom + 1 = d.after (live ++ [v]).length
      rw [List.length_append, List.length_singleton, after_succ, ← hb]
    · intro hne
      refine ⟨by simp, ?_⟩
      cases live <;> simp_all

/-- A push is taken when there is room, and refused when there is none. -/
theorem Inv.push_room {pc : PushPc w} {ok : Bool} (h : Inv d live (.push v pc) th) (he : d.push v pc = (d', .ret ok)) :
    ok = true ↔ live.length < d.capacity := by
  cases pc with
  | loadBottom => cases he
  | loadTop b =>
    simp only [Deque.push] at he
    split at he <;> cases he
    rename_i hge
    obtain ⟨hb, rfl⟩ := h.owner
    rw [hb, after_sub_top, h.sized.toInt h.bounded] at hge
    simp only [Bool.false_eq_true, false_iff]
    omega
  | write b => cases he
  | publish b =>
    cases he
    simpa using h.owner.2.2.1

/-- The last value is `n` after `top`. -/
theorem Inv.last (h : Inv d (l ++ [x]) o th) : d.read (d.after l.length) = some x :=
  h.slots l.length x (by simp)

theorem Inv.pop_next {pc pc' : PopPc w} (h : Inv d live (.pop pc) th) (he : d.pop pc = (d', .next pc')) :
    ∃ live', Inv d' live' (.pop pc') th ∧ (live' = live ∧ d'.hand (.pop pc') = d.hand (.pop pc) ∨
      ∃ x, live = live' ++ [x] ∧ d.hand (.pop pc) = [] ∧ d'.hand (.pop pc') = [x]) := by
  cases pc with
  | loadBottom =>
    cases he
    exact ⟨live, ⟨h.sized, h.bounded, h.slots, ⟨h.owner, by grind⟩, h.thieves⟩, Or.inl ⟨rfl, rfl⟩⟩
  | claim b =>
    cases he
    obtain ⟨hb, hb'⟩ := h.owner
    exact ⟨live, ⟨h.sized.of_buf rfl, h.bounded, h.slots, ⟨rfl, hb'.trans hb⟩, fun k pc hk => (h.thieves k pc hk).frame rfl rfl fun h => ⟨h, rfl⟩⟩, Or.inl ⟨rfl, rfl⟩⟩
  | loadTop b =>
    obtain ⟨hb, hb'⟩ := h.owner
    -- How far `top` is from `b` says how many values there are.
    rcases List.eq_nil_or_concat' live with rfl | ⟨l, x, rfl⟩
    · have hlen : (b - d.top).toInt = -1 := by rw [sub_top_of_empty hb', toInt_neg_one h.sized.pos]
      simp only [Deque.pop, hlen] at he
      cases he
      exact ⟨[], ⟨h.sized, h.bounded, h.slots, ⟨hb, hb', rfl⟩, h.thieves⟩, Or.inl ⟨rfl, rfl⟩⟩
    · rw [List.length_append, List.length_singleton] at hb'
      have hcap : l.length + 1 ≤ d.capacity := by simpa using h.bounded
      have hlen : (b - d.top).toInt = l.length := by rw [sub_top_of_succ hb', h.sized.toInt (by omega)]
      have hbl : b = d.after l.length := by
        rw [after_succ] at hb'
        grind
      simp only [Deque.pop, hlen] at he
      split at he
      · omega
      · split at he <;> cases he
        · rename_i hz
          obtain rfl : l = [] := List.eq_nil_of_length_eq_zero (by omega)
          refine ⟨[x], ⟨h.sized, h.bounded, h.slots, ⟨hb, by simpa using hb', ?_, by simp⟩, h.thieves⟩, Or.inl ⟨rfl, rfl⟩⟩
          rw [hbl, List.length_nil, after_zero]
        · rename_i hz
          refine ⟨l, ⟨h.sized, by omega, ?_, ⟨hb.trans hbl, ?_⟩, fun k pc hk => (h.thieves k pc hk).frame rfl rfl ?_⟩, Or.inr ⟨x, rfl, rfl, ?_⟩⟩
          · intro i y hi
            refine h.slots i y ?_
            rw [List.getElem?_append_left (List.getElem?_eq_some_iff.mp hi).1]
            exact hi
          · rw [hbl, h.last]
            rfl
          · intro _
            cases l <;> simp_all
          · rw [hand, hbl, h.last]
            rfl
  | restore b => cases he
  | race b t =>
    cases he
    obtain ⟨hb, hb', rfl, hlen⟩ := h.owner
    by_cases ht : d.top = t
    · rcases live with _ | ⟨x, _ | ⟨y, l⟩⟩
      · rw [List.length_nil, after_zero, ht] at hb'
        exact absurd hb' (add_one_ne h.sized.pos t)
      · have hx : d.read t = some x := by
          rw [← ht, ← after_zero]
          exact h.slots 0 x rfl
        rw [casTop, if_pos ht]
        refine ⟨[], ⟨h.sized.of_buf rfl, Nat.zero_le _, by simp, ⟨hb, ?_, rfl, fun _ => ?_⟩,
          fun k pc hk => (h.thieves k pc hk).advance rfl (by rw [ht])⟩, Or.inr ⟨x, rfl, rfl, ?_⟩⟩
        · rw [List.length_nil, after_zero]
        · exact Option.isSome_of_eq_some hx
        · show (d.read t).toList = [x]
          rw [hx]
          rfl
      · simp at hlen
    · rcases live with _ | ⟨x, _ | ⟨y, l⟩⟩
      · rw [casTop, if_neg ht]
        exact ⟨[], ⟨h.sized, h.bounded, h.slots, ⟨hb, hb', rfl, by simp⟩, h.thieves⟩, Or.inl ⟨rfl, rfl⟩⟩
      · rw [List.length_singleton, after_succ, after_zero] at hb'
        exact absurd (by grind) ht
      · simp at hlen
  | settle b won =>
    obtain ⟨hb, hb', rfl, hx⟩ := h.owner
    cases won <;> cases he
    refine ⟨[], ⟨h.sized.of_buf rfl, h.bounded, h.slots, ⟨hb', hx rfl⟩, fun k pc hk => (h.thieves k pc hk).frame rfl rfl fun h => ⟨h, rfl⟩⟩, Or.inl ⟨rfl, rfl⟩⟩
  | take b => cases he

theorem Inv.pop_none {pc : PopPc w} (h : Inv d live (.pop pc) th) (he : d.pop pc = (d', .ret none)) :
    Inv d' live .idle th ∧ d.hand (.pop pc) = [] := by
  have frame : ∀ {b : BitVec w}, ∀ k pc, th k = some pc → ThiefOk { d with bottom := b } live pc :=
    fun k pc hk => (h.thieves k pc hk).frame rfl rfl fun h => ⟨h, rfl⟩
  cases pc with
  | loadTop b =>
    simp only [Deque.pop] at he
    split at he
    · cases he
    · split at he <;> cases he
  | restore b =>
    cases he
    obtain ⟨hb, hb', rfl⟩ := h.owner
    exact ⟨⟨h.sized.of_buf rfl, h.bounded, h.slots, hb', frame⟩, rfl⟩
  | settle b won =>
    cases won <;> cases he
    obtain ⟨hb, hb', rfl, -⟩ := h.owner
    exact ⟨⟨h.sized.of_buf rfl, h.bounded, h.slots, hb', frame⟩, rfl⟩
  | _ => cases he

/-- `pop` returns `None` only from an empty deque. -/
theorem Inv.nil_of_pop_none {pc : PopPc w} (h : Inv d live (.pop pc) th) (he : d.pop pc = (d', .ret none)) : live = [] := by
  cases pc with
  | loadTop b =>
    simp only [Deque.pop] at he
    split at he
    · cases he
    · split at he <;> cases he
  | restore b => exact h.owner.2.2
  | settle b won => exact h.owner.2.2.1
  | _ => cases he

theorem Inv.pop_some {pc : PopPc w} {value : Option α} (h : Inv d live (.pop pc) th)
    (he : d.pop pc = (d', .ret (some value))) :
    d' = d ∧ Inv d live .idle th ∧ ∃ x, value = some x ∧ d.hand (.pop pc) = [x] := by
  cases pc with
  | loadTop b =>
    simp only [Deque.pop] at he
    split at he
    · cases he
    · split at he <;> cases he
  | settle b won => cases won <;> cases he
  | take b =>
    cases he
    obtain ⟨hb, hx⟩ := h.owner
    obtain ⟨x, hx⟩ := Option.isSome_iff_exists.mp hx
    exact ⟨rfl, ⟨h.sized, h.bounded, h.slots, hb, h.thieves⟩, x, hx, by rw [hand, hx]; rfl⟩
  | _ => cases he

theorem steal_bottom {pc : StealPc w α} {r : Out (StealPc w α) (Option (Option α))} (he : d.steal pc = (d', r)) :
    d'.bottom = d.bottom := by
  cases pc <;> simp only [Deque.steal, casTop] at he <;> (repeat' split at he) <;> cases he <;> rfl

/-- The owner's `bottom` is at the end of what is there, or one before it. -/
theorem OwnerOk.bottom (h : d.OwnerOk live o) :
    d.bottom = d.after live.length ∨ d.bottom + 1 = d.after live.length := by
  rcases o with _ | ⟨v, _ | _ | _ | _⟩ | (_ | _ | _ | _ | _ | _ | _)
  case pop.loadTop => exact Or.inr (h.1 ▸ h.2)
  case pop.restore | pop.race | pop.settle => exact Or.inr (h.1 ▸ h.2.1)
  case idle | push.loadBottom | pop.loadBottom => exact Or.inl h
  all_goals exact Or.inl h.1

/-- What the owner knows is kept when a thief takes the first value. -/
theorem OwnerOk.advance {e : Deque w α} (h : d.OwnerOk (x :: l) o) (htop : e.top = d.top + 1) (hbot : e.bottom = d.bottom)
    (hbuf : e.buf = d.buf) : e.OwnerOk l o ∧ e.hand o = d.hand o := by
  have hafter : d.after (x :: l).length = e.after l.length := (after_advance htop l.length).symm
  have hread : ∀ i, e.read i = d.read i := by simp [read, slot, mask, capacity, hbuf]
  have hcap : e.capacity = d.capacity := by rw [capacity, capacity, hbuf]
  have hlt : l.length < (x :: l).length := by simp
  rcases o with _ | ⟨v, _ | _ | _ | _⟩ | (_ | _ | _ | _ | _ | _ | _)
  case pop.settle b won => exact absurd h.2.2.1 (by simp)
  all_goals simp only [OwnerOk, hafter, hbot, hcap, hread] at h ⊢
  case push.write => exact ⟨⟨h.1, h.2.1, by omega⟩, rfl⟩
  case push.publish => exact ⟨⟨h.1, h.2.1, by omega, h.2.2.2⟩, rfl⟩
  case pop.restore => exact absurd h.2.2 (by simp)
  case pop.race => exact ⟨⟨h.1, h.2.1, h.2.2.1, by omega⟩, rfl⟩
  case pop.take => exact ⟨h, by simp [hand, hread]⟩
  all_goals exact ⟨h, rfl⟩

variable [DecidableEq ι] {k : ι}

/-- A thief's step changes what it knows, and nothing about the others. -/
theorem Inv.thief_update (h : Inv d live o th) {pc : Option (StealPc w α)}
    (hpc : ∀ pc', pc = some pc' → d.ThiefOk live pc') : Inv d live o (Function.update th k pc) := by
  refine ⟨h.sized, h.bounded, h.slots, h.owner, fun j pc' hj => ?_⟩
  obtain rfl | hjk := eq_or_ne j k
  · rw [Function.update_self] at hj
    exact hpc pc' hj
  · rw [Function.update_of_ne hjk] at hj
    exact h.thieves j pc' hj

theorem Inv.steal_next {pc pc' : StealPc w α} (h : Inv d live o th) (hk : th k = some pc)
    (he : d.steal pc = (d', .next pc')) : d' = d ∧ Inv d live o (Function.update th k (some pc')) := by
  have hok := h.thieves k pc hk
  cases pc with
  | loadTop =>
    cases he
    refine ⟨rfl, h.thief_update ?_⟩
    rintro _ ⟨⟩
    exact ⟨le_rfl, by simp⟩
  | loadBottom t seen =>
    simp only [Deque.steal] at he
    split at he <;> cases he
    rename_i hgt
    refine ⟨rfl, h.thief_update ?_⟩
    rintro _ ⟨⟩
    refine ⟨hok.1, hok.2, ?_⟩
    rintro rfl rfl
    have ht : d.top = t := by simpa using hok.2
    rw [← ht] at hgt
    rcases h.owner.bottom with hb | hb
    · rw [hb, after_sub_top] at hgt
      simp at hgt
    · rw [sub_top_of_empty hb, toInt_neg_one h.sized.pos] at hgt
      omega
  | read t seen =>
    cases he
    refine ⟨rfl, h.thief_update ?_⟩
    rintro _ ⟨⟩
    refine ⟨hok.1, hok.2.1, fun hs => ⟨hok.2.2 hs, ?_⟩⟩
    have ht : d.top = t := by simpa [hs] using hok.2.1
    cases live with
    | nil => exact absurd rfl (hok.2.2 hs)
    | cons x l =>
      rw [← ht, ← after_zero]
      exact h.slots 0 x rfl
  | claim t seen value => cases he

theorem Inv.steal_none {pc : StealPc w α} (h : Inv d live o th) (he : d.steal pc = (d', .ret none)) :
    d' = d ∧ Inv d live o (Function.update th k none) := by
  refine ⟨?_, h.thief_update (by rintro _ ⟨⟩)⟩
  cases pc with
  | loadBottom t seen =>
    simp only [Deque.steal] at he
    split at he <;> cases he
    rfl
  | claim t seen value =>
    simp only [Deque.steal, casTop] at he
    split at he <;> cases he
    rfl
  | _ => cases he

theorem Inv.steal_some {pc : StealPc w α} {value : Option α} (h : Inv d live o th) (hk : th k = some pc)
    (hwrap : d.inTime pc = true)
    (he : d.steal pc = (d', .ret (some value))) :
    ∃ x l, live = x :: l ∧ value = some x ∧ Inv d' l o (Function.update th k none) ∧ d'.hand o = d.hand o := by
  have hok := h.thieves k pc hk
  cases pc with
  | claim t seen v =>
    simp only [Deque.steal, casTop] at he
    split at he <;> cases he
    rename_i ht
    obtain ⟨hle, htop, hnow⟩ := hok
    have hseen : seen = d.wins := by
      have hlt : d.wins < seen + 2 ^ w := by simpa [inTime] using hwrap
      have hzero : BitVec.ofNat w (d.wins - seen) = 0 := by grind
      have := (ofNat_eq_zero_iff (by omega)).mp hzero
      omega
    obtain ⟨hne, hv⟩ := hnow hseen
    cases live with
    | nil => exact absurd rfl hne
    | cons x l =>
      obtain ⟨howner, hhand⟩ := h.owner.advance (e := { d with top := t + 1, wins := d.wins + 1 }) (by rw [ht]) rfl rfl
      refine ⟨x, l, rfl, hv, ⟨h.sized.of_buf rfl, ?_, ?_, howner, ?_⟩, hhand⟩
      · have := h.bounded
        rw [List.length_cons] at this
        exact (Nat.le_succ _).trans this
      · intro i y hi
        have hafter := after_advance (e := { d with top := t + 1, wins := d.wins + 1 }) (by rw [ht]) i
        exact (congrArg d.read hafter).trans (h.slots (i + 1) y hi)
      · intro j pc' hj
        obtain rfl | hjk := eq_or_ne j k
        · rw [Function.update_self] at hj
          cases hj
        · rw [Function.update_of_ne hjk] at hj
          exact (h.thieves j pc' hj).advance rfl (by rw [ht])
  | loadBottom t seen =>
    simp only [Deque.steal] at he
    split at he <;> cases he
  | _ => cases he

end

end Deque

end Krio.Parallel
