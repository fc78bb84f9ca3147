import Mathlib.Logic.Relation
import Mathlib.Data.List.Nodup
import Mathlib.Data.List.Perm.Subperm

/-! Depth-first search with a stack and a set of seen keys. A vertex is marked when it
is pushed, so the root is never marked; on a graph with a rank that falls along every
edge the root is not met again. -/

namespace Axyl.Search
open List

variable {α κ : Type} [DecidableEq κ]

def push (key : α → κ) : List α → List κ → List α → List κ × List α
  | [], seen, stack => (seen, stack)
  | c :: cs, seen, stack =>
    if key c ∈ seen then push key cs seen stack
    else push key cs (key c :: seen) (c :: stack)

def loop (key : α → κ) (expand : α → List α) : Nat → List κ → List α → Option (List α)
  | _, _, [] => some []
  | 0, _, _ :: _ => none
  | fuel + 1, seen, x :: stack =>
    let (seen, stack) := push key (expand x) seen stack
    (loop key expand fuel seen stack).map (x :: ·)

def search (key : α → κ) (expand : α → List α) (fuel : Nat) (root : α) : Option (List α) :=
  loop key expand fuel [] [root]

def Reachable (expand : α → List α) : α → α → Prop :=
  Relation.ReflTransGen fun x y => y ∈ expand x

section Push
variable {key : α → κ} {cs : List α} {seen : List κ} {stack : List α}

theorem subset_push (key : α → κ) (cs : List α) (seen : List κ) (stack : List α) :
    seen ⊆ (push key cs seen stack).1 ∧ stack ⊆ (push key cs seen stack).2 := by
  fun_induction push key cs seen stack with
  | case1 => exact ⟨List.Subset.refl _, List.Subset.refl _⟩
  | case2 _ _ _ _ _ ih => exact ih
  | case3 _ _ _ _ _ ih => exact ⟨(cons_subset.mp ih.1).2, (cons_subset.mp ih.2).2⟩

theorem key_mem_push : ∀ c ∈ cs, key c ∈ (push key cs seen stack).1 := by
  fun_induction push key cs seen stack with
  | case1 => simp
  | case2 c cs seen stack hc ih => exact forall_mem_cons.mpr ⟨(subset_push key cs _ _).1 hc, ih⟩
  | case3 c cs seen stack _ ih =>
    exact forall_mem_cons.mpr ⟨(subset_push key cs _ _).1 mem_cons_self, ih⟩

theorem mem_push_stack {x : α} (h : x ∈ (push key cs seen stack).2) : x ∈ cs ∨ x ∈ stack := by
  fun_induction push key cs seen stack with
  | case1 => exact .inr h
  | case2 _ _ _ _ _ ih => exact (ih h).imp_left (mem_cons_of_mem _)
  | case3 _ _ _ _ _ ih =>
    rcases ih h with h | h
    · exact .inl (mem_cons_of_mem _ h)
    · rcases mem_cons.mp h with rfl | h
      · exact .inl mem_cons_self
      · exact .inr h

theorem mem_push_seen {k : κ} (h : k ∈ (push key cs seen stack).1) :
    k ∈ seen ∨ ∃ c ∈ (push key cs seen stack).2, key c = k ∧ c ∈ cs := by
  fun_induction push key cs seen stack with
  | case1 => exact .inl h
  | case2 _ _ _ _ _ ih =>
    exact (ih h).imp_right fun ⟨d, hd, hk, hm⟩ => ⟨d, hd, hk, mem_cons_of_mem _ hm⟩
  | case3 c cs _ _ _ ih =>
    rcases ih h with h | ⟨d, hd, hk, hm⟩
    · rcases mem_cons.mp h with rfl | h
      · exact .inr ⟨c, (subset_push key cs _ _).2 mem_cons_self, rfl, mem_cons_self⟩
      · exact .inl h
    · exact .inr ⟨d, hd, hk, mem_cons_of_mem _ hm⟩

theorem push_length (key : α → κ) (cs : List α) (seen : List κ) (stack : List α) :
    (push key cs seen stack).1.length + stack.length =
      seen.length + (push key cs seen stack).2.length := by
  fun_induction push key cs seen stack with
  | case1 => rfl
  | case2 _ _ _ _ _ ih => exact ih
  | case3 _ _ _ _ _ ih =>
    simp only [length_cons] at ih
    omega

theorem push_seen_nodup (h : seen.Nodup) : (push key cs seen stack).1.Nodup := by
  fun_induction push key cs seen stack with
  | case1 => exact h
  | case2 _ _ _ _ _ ih => exact ih h
  | case3 _ _ _ _ hc ih => exact ih (nodup_cons.mpr ⟨hc, h⟩)

theorem push_stack_nodup (hs : ∀ x ∈ stack, key x ∈ seen) (h : (stack.map key).Nodup) :
    ((push key cs seen stack).2.map key).Nodup ∧
      ∀ x ∈ (push key cs seen stack).2, key x ∈ (push key cs seen stack).1 := by
  fun_induction push key cs seen stack with
  | case1 => exact ⟨h, hs⟩
  | case2 _ _ _ _ _ ih => exact ih hs h
  | case3 c cs seen stack hc ih =>
    refine ih (forall_mem_cons.mpr ⟨mem_cons_self, fun x hx => mem_cons_of_mem _ (hs x hx)⟩) ?_
    refine nodup_cons.mpr ⟨fun hm => ?_, h⟩
    obtain ⟨x, hx, hk⟩ := mem_map.mp hm
    exact hc (hk ▸ hs x hx)

theorem push_stack_fresh :
    ∀ x ∈ (push key cs seen stack).2, key x ∈ stack.map key ∨ key x ∉ seen := by
  fun_induction push key cs seen stack with
  | case1 => exact fun x hx => .inl (mem_map_of_mem hx)
  | case2 _ _ _ _ _ ih => exact ih
  | case3 c cs seen stack hc ih =>
    intro x hx
    rcases ih x hx with hk | hk
    · rcases mem_cons.mp hk with hk | hk
      · exact .inr (hk ▸ hc)
      · exact .inl hk
    · exact .inr fun hk' => hk (mem_cons_of_mem _ hk')

end Push

theorem rank_le_of_reachable {expand : α → List α} (rank : α → Nat)
    (hrank : ∀ x, ∀ c ∈ expand x, rank c < rank x) {x y : α} (h : Reachable expand x y) :
    rank y ≤ rank x := by
  induction h with
  | refl => exact Nat.le_refl _
  | tail _ hyz ih => exact Nat.le_trans (Nat.le_of_lt (hrank _ _ hyz)) ih

section Loop
variable {key : α → κ} {ex : α → List α} {stk l : List α} {seen : List κ} {fuel : Nat}

theorem loop_cons {x : α} (h : loop key ex fuel seen (x :: stk) = some l) :
    ∃ fuel' rest, fuel = fuel' + 1 ∧ l = x :: rest ∧ loop key ex fuel' (push key (ex x) seen stk).1
        (push key (ex x) seen stk).2 = some rest := by
  cases fuel with
  | zero => simp [loop] at h
  | succ fuel =>
    obtain ⟨rest, hr, rfl⟩ := Option.map_eq_some_iff.mp h
    exact ⟨fuel, rest, rfl, rfl, hr⟩

theorem loop_isSome {univ : List κ} (hu : ∀ x, ∀ c ∈ ex x, key c ∈ univ) (hn : seen.Nodup)
    (hs : seen ⊆ univ) (hf : stk.length + univ.length ≤ fuel + seen.length) :
    ∃ l, loop key ex fuel seen stk = some l := by
  fun_induction loop key ex fuel seen stk with
  | case1 => exact ⟨[], rfl⟩
  | case2 seen x stk =>
    have := (subperm_of_subset hn hs).length_le
    simp only [length_cons] at hf
    omega
  | case3 fuel seen x stk seen' stk' hpush ih =>
    obtain ⟨rfl, rfl⟩ := Prod.mk.inj hpush.symm
    have hlen := push_length key (ex x) seen stk
    simp only [length_cons] at hf
    obtain ⟨l, hl⟩ := ih (push_seen_nodup hn) (fun k hk => by
      rcases mem_push_seen hk with hk | ⟨c, -, rfl, hc⟩
      · exact hs hk
      · exact hu x c hc) (by omega)
    exact ⟨x :: l, by rw [hl]; rfl⟩

section
variable (h : loop key ex fuel seen stk = some l)
include h

theorem loop_sound : ∀ x ∈ l, ∃ b ∈ stk, Reachable ex b x := by
  fun_induction loop key ex fuel seen stk generalizing l with
  | case1 =>
    cases h
    nofun
  | case2 => cases h
  | case3 fuel seen x stk seen' stk' hpush ih =>
    obtain ⟨rest, hr, rfl⟩ := Option.map_eq_some_iff.mp h
    obtain ⟨rfl, rfl⟩ := Prod.mk.inj hpush.symm
    refine forall_mem_cons.mpr ⟨⟨x, mem_cons_self, .refl⟩, fun y hy => ?_⟩
    obtain ⟨b, hb, hby⟩ := ih hr y hy
    rcases mem_push_stack hb with hb | hb
    · exact ⟨x, mem_cons_self, .head hb hby⟩
    · exact ⟨b, mem_cons_of_mem _ hb, hby⟩

theorem loop_closed : stk ⊆ l ∧ ∀ x ∈ l, ∀ c ∈ ex x, key c ∈ seen ∨ ∃ d ∈ l, key d = key c := by
  fun_induction loop key ex fuel seen stk generalizing l with
  | case1 =>
    cases h
    exact ⟨List.Subset.refl _, nofun⟩
  | case2 => cases h
  | case3 fuel seen x stk seen' stk' hpush ih =>
    obtain ⟨rest, hr, rfl⟩ := Option.map_eq_some_iff.mp h
    obtain ⟨hsub, hcl⟩ := ih hr
    obtain ⟨rfl, rfl⟩ := Prod.mk.inj hpush.symm
    -- a key marked by this push belongs to a vertex that is still on the stack
    have hmark : ∀ c, key c ∈ (push key (ex x) seen stk).1 →
        key c ∈ seen ∨ ∃ d ∈ x :: rest, key d = key c := by
      intro c hc
      rcases mem_push_seen hc with hc | ⟨d, hd, hk, -⟩
      · exact .inl hc
      · exact .inr ⟨d, mem_cons_of_mem _ (hsub hd), hk⟩
    refine ⟨?_, ?_⟩
    · intro y hy
      rcases mem_cons.mp hy with rfl | hy
      · exact mem_cons_self
      · exact mem_cons_of_mem _ (hsub ((subset_push key _ _ _).2 hy))
    · intro y hy c hc
      rcases mem_cons.mp hy with rfl | hy
      · exact hmark c (key_mem_push c hc)
      · rcases hcl y hy c hc with hk | ⟨d, hd, hk⟩
        · exact hmark c hk
        · exact .inr ⟨d, mem_cons_of_mem _ hd, hk⟩

theorem loop_nodup (hs : ∀ x ∈ stk, key x ∈ seen) (hn : (stk.map key).Nodup) :
    (l.map key).Nodup ∧ ∀ x ∈ l, key x ∈ stk.map key ∨ key x ∉ seen := by
  fun_induction loop key ex fuel seen stk generalizing l with
  | case1 =>
    cases h
    exact ⟨nodup_nil, nofun⟩
  | case2 => cases h
  | case3 fuel seen x stk seen' stk' hpush ih =>
    obtain ⟨rest, hr, rfl⟩ := Option.map_eq_some_iff.mp h
    obtain ⟨rfl, rfl⟩ := Prod.mk.inj hpush.symm
    obtain ⟨hx, hn⟩ := nodup_cons.mp hn
    obtain ⟨hxs, hs⟩ := forall_mem_cons.mp hs
    obtain ⟨hpn, hps⟩ := push_stack_nodup hs hn
    obtain ⟨hnd, hmem⟩ := ih hr hps hpn
    have hkeys : ∀ y ∈ rest, key y ∈ stk.map key ∨ key y ∉ seen := by
      intro y hy
      rcases hmem y hy with hk | hk
      · obtain ⟨z, hz, hzk⟩ := mem_map.mp hk
        exact hzk ▸ push_stack_fresh z hz
      · exact .inr fun hk' => hk ((subset_push key _ _ _).1 hk')
    refine ⟨nodup_cons.mpr ⟨fun hm => ?_, hnd⟩, ?_⟩
    · obtain ⟨y, hy, hyk⟩ := mem_map.mp hm
      rcases hkeys y hy with hk | hk
      · exact hx (hyk ▸ hk)
      · exact hk (hyk ▸ hxs)
    · exact forall_mem_cons.mpr ⟨.inl mem_cons_self, fun y hy =>
        (hkeys y hy).imp_left (mem_cons_of_mem _)⟩

end

end Loop

theorem search_spec (key : α → κ) (expand : α → List α) (univ : List κ) {fuel : Nat} (root : α)
    (rank : α → Nat) (hrank : ∀ x, ∀ c ∈ expand x, rank c < rank x)
    (hu : ∀ x, ∀ c ∈ expand x, key c ∈ univ) (hf : univ.length < fuel)
    (hinj : ∀ x y, Reachable expand root x → Reachable expand root y → key x = key y → x = y) :
    ∃ l, search key expand fuel root = some l ∧ (l.map key).Nodup ∧
      ∀ x, x ∈ l ↔ Reachable expand root x := by
  obtain ⟨l, hl⟩ : ∃ l, loop key expand fuel [] [root] = some l :=
    loop_isSome hu nodup_nil (nil_subset _) (by simp only [length_cons, length_nil]; omega)
  have hsnd : ∀ x ∈ l, Reachable expand root x := by
    intro x hx
    obtain ⟨b, hb, hbx⟩ := loop_sound hl x hx
    rwa [mem_singleton.mp hb] at hbx
  obtain ⟨hsub, hcls⟩ := loop_closed hl
  refine ⟨l, hl, ?_, fun x => ⟨hsnd x, fun hx => ?_⟩⟩
  · obtain ⟨_, rest, rfl, rfl, hr⟩ := loop_cons hl
    have hps := @push_stack_nodup _ _ _ key (expand root) [] [] nofun nodup_nil
    refine nodup_cons.mpr ⟨fun hm => ?_, (loop_nodup hr hps.2 hps.1).1⟩
    -- the root cannot come back: the rank has fallen
    obtain ⟨y, hy, hk⟩ := mem_map.mp hm
    obtain ⟨b, hb, hby⟩ := loop_sound hr y hy
    have hbr : rank b < rank root := hrank _ _ ((mem_push_stack hb).resolve_right (by simp))
    have hyb : rank y ≤ rank b := rank_le_of_reachable rank hrank hby
    have : y = root := hinj y root (hsnd y (mem_cons_of_mem _ hy)) .refl hk
    subst this
    omega
  · induction hx with
    | refl => exact hsub mem_cons_self
    | @tail y z hy hyz ih =>
      rcases hcls y ih z hyz with hk | ⟨d, hd, hk⟩
      · simp at hk
      · rwa [← hinj d z (hsnd d hd) (.tail hy hyz) hk]

end Axyl.Search
