import Mathlib

namespace SystemLevel.Lookup

variable {κ β : Type} [DecidableEq κ]

theorem lookup_eq_none {l : List (κ × β)} {k : κ} (h : ∀ p ∈ l, p.1 ≠ k) : l.lookup k = none := by
  rw [List.lookup_eq_none_iff]
  intro p hp
  simpa [bne_iff_ne] using Ne.symm (h p hp)

theorem lookup_skip {l l' : List (κ × β)} {k : κ} (h : ∀ p ∈ l, p.1 ≠ k) : (l ++ l').lookup k = l'.lookup k := by
  rw [List.lookup_append, lookup_eq_none h, Option.none_or]

theorem lookup_before {l l' : List (κ × β)} {k : κ} (h : ∀ p ∈ l', p.1 ≠ k) : (l ++ l').lookup k = l.lookup k := by
  rw [List.lookup_append, lookup_eq_none h, Option.or_none]

theorem lookup_cons_ne {p : κ × β} {l : List (κ × β)} {k : κ} (h : p.1 ≠ k) : (p :: l).lookup k = l.lookup k :=
  lookup_skip (l := [p]) (by simpa using h)

theorem lookup_replaced {below above : List (κ × β)} {key : κ} {value : β} (hbelow : ∀ p ∈ below, p.1 ≠ key)
    (old : List (κ × β)) (hold : ∀ p ∈ old, p.1 = key) (k : κ) :
    (below ++ (key, value) :: above).lookup k =
      if k = key then some value else (below ++ (old ++ above)).lookup k := by
  split_ifs with hk
  · subst hk
    rw [lookup_skip hbelow, List.lookup_cons_self]
  · have hskip : (old ++ above).lookup k = above.lookup k :=
      lookup_skip (fun p hp he => hk (he.symm.trans (hold p hp)))
    rw [List.lookup_append, List.lookup_append, hskip, lookup_cons_ne (fun h => hk h.symm)]

def latest (entries : List (κ × β)) (key : κ) : Option β := entries.reverse.lookup key

theorem latest_snoc (entries : List (κ × β)) (key : κ) (value : β) :
    latest (entries ++ [(key, value)]) = Function.update (latest entries) key (some value) := by
  funext k
  rw [Function.update_apply, latest, List.reverse_append, List.reverse_singleton, List.singleton_append,
    List.lookup_cons]
  split_ifs with hk
  · rw [hk, beq_self_eq_true]
  · rw [beq_eq_false_iff_ne.mpr hk]
    rfl

theorem latest_eq_none (entries : List (κ × β)) (key : κ) :
    latest entries key = none ↔ key ∉ entries.map Prod.fst := by
  rw [latest, List.lookup_eq_none_iff]
  constructor
  · intro hnone hkey
    obtain ⟨p, hp, rfl⟩ := List.mem_map.mp hkey
    simpa using hnone p (List.mem_reverse.mpr hp)
  · intro hkey p hp
    have hne : key ≠ p.1 := fun he => hkey (he ▸ List.mem_map_of_mem (List.mem_reverse.mp hp))
    simpa using hne

theorem latest_append (entries entries' : List (κ × β)) (key : κ) :
    latest (entries ++ entries') key = (latest entries' key).or (latest entries key) := by
  rw [latest, List.reverse_append, List.lookup_append]
  rfl

end SystemLevel.Lookup
