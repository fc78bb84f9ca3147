import Mathlib.Data.List.Dedup
import Mathlib.Data.List.Sort
import Mathlib.Data.Prod.Lex

/-! Sources read through cursors and merged by a queue that holds the next element of each source.
The queue is kept in order of element, then source, so its head is the least. -/

namespace Axyl.KWayMerge
open List

variable {κ : Type} [LinearOrder κ]

abbrev Le (x y : Nat × κ) : Prop := toLex x ≤ toLex y

abbrev Lt (x y : Nat × κ) : Prop := toLex x < toLex y

instance : Std.Total (@Le κ _) := ⟨fun x y => le_total (toLex x) (toLex y)⟩

instance : IsTrans (Nat × κ) Le := ⟨fun _ _ _ => le_trans⟩

theorem Lt.ne {x y : Nat × κ} (h : Lt x y) : x ≠ y := by
  rintro rfl
  exact lt_irrefl _ h

def push (x : Nat × κ) (queue : List (Nat × κ)) : List (Nat × κ) :=
  queue.orderedInsert Le x

@[simp] theorem mem_push {x y : Nat × κ} {queue : List (Nat × κ)} :
    y ∈ push x queue ↔ y = x ∨ y ∈ queue := mem_orderedInsert Le

def advance (next : κ → Nat → Option Nat) (x : Nat × κ) (queue : List (Nat × κ)) : List (Nat × κ) :=
  match next x.2 x.1 with
  | some r => push (r, x.2) queue
  | none => queue

/-- A cursor moves to the least wanted element above the one it is at. -/
structure Cursor (next : κ → Nat → Option Nat) (want : κ → Nat → Prop) : Prop where
  some : ∀ a r r', next a r = some r' → want a r' ∧ r < r' ∧ ∀ s, want a s → r < s → r' ≤ s
  none : ∀ a r, next a r = none → ∀ s, want a s → s ≤ r

structure Valid (want : κ → Nat → Prop) (queue : List (Nat × κ)) : Prop where
  sorted : queue.Pairwise Lt
  sources : (queue.map Prod.snd).Nodup
  wanted : ∀ x ∈ queue, want x.2 x.1

def Left (want : κ → Nat → Prop) (queue : List (Nat × κ)) (y : Nat × κ) : Prop :=
  want y.2 y.1 ∧ ∃ r ≤ y.1, (r, y.2) ∈ queue

variable {next : κ → Nat → Option Nat} {want : κ → Nat → Prop} {queue : List (Nat × κ)}
  {x y : Nat × κ}

theorem valid_nil : Valid want [] := ⟨List.Pairwise.nil, nodup_nil, by simp⟩

section
variable (h : Valid want (x :: queue))
include h

theorem Valid.tail : Valid want queue where
  sorted := (pairwise_cons.mp h.sorted).2
  sources := (nodup_cons.mp h.sources).2
  wanted := fun y hy => h.wanted y (mem_cons_of_mem x hy)

theorem Valid.head_notMem : x.2 ∉ queue.map Prod.snd :=
  (nodup_cons.mp h.sources).1

omit h in
theorem Valid.push (h : Valid want queue) (hwant : want x.2 x.1)
    (hnew : x.2 ∉ queue.map Prod.snd) : Valid want (push x queue) := by
  have hperm : (KWayMerge.push x queue).Perm (x :: queue) := perm_orderedInsert Le x queue
  have hsources : ((KWayMerge.push x queue).map Prod.snd).Nodup := by
    rw [(hperm.map Prod.snd).nodup_iff]
    exact nodup_cons.mpr ⟨hnew, h.sources⟩
  refine ⟨?_, hsources, ?_⟩
  · -- sorted with repetitions by the insertion, and nothing is repeated
    have hle : (KWayMerge.push x queue).Pairwise Le :=
      List.Pairwise.orderedInsert x queue (h.sorted.imp le_of_lt)
    exact (hle.and (List.Nodup.of_map Prod.snd hsources)).imp fun hxy =>
      lt_of_le_of_ne hxy.1 fun he => hxy.2 (toLex.injective he)
  · intro y hy
    rcases mem_push.mp hy with rfl | hy
    · exact hwant
    · exact h.wanted y hy

omit h in
omit [LinearOrder κ] in
theorem left_iff_of_mem {more : List (Nat × κ)} (hmore : ∀ z, z ∈ more ↔ z = x ∨ z ∈ queue) :
    Left want more y ↔ (want y.2 y.1 ∧ y.2 = x.2 ∧ x.1 ≤ y.1) ∨ Left want queue y := by
  constructor
  · rintro ⟨hwant, r, hr, hmem⟩
    rcases (hmore _).mp hmem with rfl | hmem
    · exact .inl ⟨hwant, rfl, hr⟩
    · exact .inr ⟨hwant, r, hr, hmem⟩
  · rintro (⟨hwant, hsrc, hle⟩ | ⟨hwant, r, hr, hmem⟩)
    · refine ⟨hwant, x.1, hle, (hmore _).mpr (.inl ?_)⟩
      rw [hsrc]
    · exact ⟨hwant, r, hr, (hmore _).mpr (.inr hmem)⟩

omit h in
theorem left_push : Left want (push x queue) y ↔
    (want y.2 y.1 ∧ y.2 = x.2 ∧ x.1 ≤ y.1) ∨ Left want queue y :=
  left_iff_of_mem fun _ => mem_push

omit h in
omit [LinearOrder κ] in
theorem left_cons : Left want (x :: queue) y ↔
    (want y.2 y.1 ∧ y.2 = x.2 ∧ x.1 ≤ y.1) ∨ Left want queue y :=
  left_iff_of_mem fun _ => mem_cons

theorem Valid.left_head : Left want (x :: queue) x :=
  left_cons.mpr (.inl ⟨h.wanted x mem_cons_self, rfl, le_refl _⟩)

theorem Valid.head_le (hy : Left want (x :: queue) y) : Le x y := by
  rcases left_cons.mp hy with ⟨_, hsrc, hle⟩ | ⟨_, r, hr, hmem⟩
  · rcases Nat.lt_or_eq_of_le hle with hlt | heq
    · exact le_of_lt (Prod.Lex.toLex_lt_toLex.mpr (.inl hlt))
    · exact Prod.Lex.toLex_le_toLex.mpr (.inr ⟨heq, le_of_eq hsrc.symm⟩)
  · have hlt := (pairwise_cons.mp h.sorted).1 _ hmem
    have hry : Le (r, y.2) y := by
      rcases Nat.lt_or_eq_of_le hr with hlt | heq
      · exact le_of_lt (Prod.Lex.toLex_lt_toLex.mpr (.inl hlt))
      · exact Prod.Lex.toLex_le_toLex.mpr (.inr ⟨heq, le_refl _⟩)
    exact le_trans (le_of_lt hlt) hry

theorem Valid.advance (hc : Cursor next want) : Valid want (advance next x queue) := by
  unfold KWayMerge.advance
  split
  · rename_i r hr
    exact h.tail.push (hc.some x.2 x.1 r hr).1 h.head_notMem
  · exact h.tail

theorem Valid.left_advance (hc : Cursor next want) :
    Left want (KWayMerge.advance next x queue) y ↔ Left want (x :: queue) y ∧ y ≠ x := by
  have hoth : Left want queue y → y ≠ x := by
    rintro ⟨_, r, _, hmem⟩ rfl
    exact h.head_notMem (mem_map.mpr ⟨_, hmem, rfl⟩)
  -- above the head of the same source is above the cursor's next element, if it has one
  have hsame : y.2 = x.2 → x.1 ≤ y.1 → y ≠ x → x.1 < y.1 := by
    intro hsrc hle hne
    refine lt_of_le_of_ne hle fun heq => hne ?_
    exact Prod.ext heq.symm hsrc
  unfold KWayMerge.advance
  rw [left_cons]
  split
  · rename_i r hr
    obtain ⟨_, hlt, hleast⟩ := hc.some x.2 x.1 r hr
    rw [left_push]
    constructor
    · rintro (⟨hwant, hsrc, hle⟩ | hleft)
      · refine ⟨.inl ⟨hwant, hsrc, Nat.le_of_lt (by omega)⟩, ?_⟩
        rintro rfl
        omega
      · exact ⟨.inr hleft, hoth hleft⟩
    · rintro ⟨⟨hwant, hsrc, hle⟩ | hleft, hne⟩
      · refine .inl ⟨hwant, hsrc, hleast y.1 ?_ (hsame hsrc hle hne)⟩
        rw [← hsrc]
        exact hwant
      · exact .inr hleft
  · rename_i hr
    constructor
    · intro hleft
      exact ⟨.inr hleft, hoth hleft⟩
    · rintro ⟨⟨hwant, hsrc, hle⟩ | hleft, hne⟩
      · have hpast : y.1 ≤ x.1 := hc.none x.2 x.1 hr y.1 (by rw [← hsrc]; exact hwant)
        exact absurd (hsame hsrc hle hne) (by omega)
      · exact hleft

end

structure Merges (want : κ → Nat → Prop) (queue out : List (Nat × κ)) : Prop where
  sorted : out.Pairwise Lt
  mem : ∀ y, y ∈ out ↔ Left want queue y

variable {out : List (Nat × κ)}

theorem Merges.nil (h : Merges want [] out) : out = [] := by
  refine eq_nil_iff_forall_not_mem.mpr fun y hy => ?_
  obtain ⟨_, r, _, hmem⟩ := (h.mem y).mp hy
  exact not_mem_nil hmem

theorem Merges.cons (hc : Cursor next want) (hv : Valid want (x :: queue))
    (h : Merges want (x :: queue) out) :
    ∃ rest, out = x :: rest ∧ Merges want (advance next x queue) rest := by
  have hx : x ∈ out := (h.mem x).mpr hv.left_head
  cases out with
  | nil => exact absurd hx not_mem_nil
  | cons z rest =>
    obtain ⟨hz, hrest⟩ := pairwise_cons.mp h.sorted
    have hzx : z = x := by
      rcases mem_cons.mp hx with heq | hmem
      · exact heq.symm
      · have hle := hv.head_le ((h.mem z).mp mem_cons_self)
        exact absurd (lt_of_le_of_lt hle (hz x hmem)) (lt_irrefl _)
    subst hzx
    refine ⟨rest, rfl, hrest, fun y => ?_⟩
    rw [hv.left_advance hc, ← h.mem y, mem_cons]
    constructor
    · intro hy
      exact ⟨.inr hy, (Lt.ne (hz y hy)).symm⟩
    · rintro ⟨rfl | hy, hne⟩
      · exact absurd rfl hne
      · exact hy

theorem exists_merges (all : List (Nat × κ)) (h : ∀ y, Left want queue y → y ∈ all) :
    ∃ out, Merges want queue out := by
  classical
  let kept := (all.filter fun y => Left want queue y).dedup
  have hperm : (kept.insertionSort Le).Perm kept := perm_insertionSort Le kept
  refine ⟨kept.insertionSort Le, ?_, ?_⟩
  · have hnd : (kept.insertionSort Le).Nodup := hperm.nodup_iff.mpr (nodup_dedup _)
    exact ((pairwise_insertionSort Le kept).and hnd).imp fun hxy =>
      lt_of_le_of_ne hxy.1 fun he => hxy.2 (toLex.injective he)
  · intro y
    rw [hperm.mem_iff, mem_dedup, mem_filter, decide_eq_true_eq]
    exact ⟨And.right, fun hy => ⟨h y hy, hy⟩⟩

end Axyl.KWayMerge
