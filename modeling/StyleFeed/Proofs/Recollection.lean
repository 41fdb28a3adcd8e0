import Mathlib.Data.List.Nodup
import Mathlib.Data.List.Perm.Subperm
import StyleFeed.Proofs.Settlements

/-!
Which settled renames are remembered: `Pairing.remembers_latest`. They are numbered here in the order in which they were
settled, so that each of them can be told from its like. An entry leaves the memory in two ways: a signal about both
sides takes the oldest one that it repeats, from anywhere, and the oldest of all is forgotten when there is no room for
a new one. So what is kept is the end of what no signal has taken (`Recollection.Window`), and it goes back the further
the more has been taken: `Pairing.Reaching.remembers_older`.
-/

namespace StyleFeed

/-- What is remembered, and what signals have taken from it, each entry with its number. -/
structure Recollection where
  /-- All that was ever remembered, in order. -/
  history : List Settled
  kept : List (Settled × Nat)
  /-- The swallowed signals, each with the entry that it has taken. -/
  taken : List (Call × Settled × Nat)

namespace Recollection

open Pairing (push)

def empty : Recollection := ⟨[], [], []⟩

def remember (m : Recollection) (s : Settled) : Recollection :=
  { m with history := m.history ++ [s], kept := push m.kept (s, m.history.length) }

/-- A swallowed signal takes the oldest entry that it repeats. -/
def take (m : Recollection) (c : Call) : Recollection :=
  match m.kept.find? (c.repeats ·.1) with
  | some x => { m with kept := m.kept.eraseP (c.repeats ·.1), taken := m.taken ++ [(c, x)] }
  | none => m

def call (m : Recollection) (p : Pairing) (c : Call) : Recollection :=
  if p.Swallows c then m.take c else (p.settles c).foldl remember m

def run (m : Recollection) (p : Pairing) : List Call → Recollection
  | [] => m
  | c :: rest => (m.call p c).run (p.call c).2 rest

/-- After a run from the start. -/
def after (grace : Duration) (calls : List Call) : Recollection := empty.run (.start grace) calls

/-- All that was ever remembered, numbered in this order. -/
def entries (m : Recollection) : List (Settled × Nat) := m.history.zipIdx

def takenEntries (m : Recollection) : List (Settled × Nat) := m.taken.map Prod.snd

/-- What no signal has taken. -/
def untaken (m : Recollection) : List (Settled × Nat) := m.entries.filter (· ∉ m.takenEntries)

/-- What is kept is the end of what no signal has taken. -/
structure Window (m : Recollection) : Prop where
  latest : m.kept <:+ m.untaken
  bounded : m.kept.length ≤ Pairing.memory
  /-- What was forgotten for want of room is old. -/
  aged : ∀ x ∈ m.untaken, x ∉ m.kept → x.2 + Pairing.memory < m.history.length
  distinct : m.takenEntries.Nodup
  repeated : ∀ a ∈ m.taken, a.2 ∈ m.entries ∧ a.1.repeats a.2.1

variable {m : Recollection}

theorem nodup_entries (m : Recollection) : m.entries.Nodup := by
  apply List.Nodup.of_map Prod.snd
  rw [entries, List.zipIdx_map_snd]
  exact List.nodup_range'

theorem lt_of_mem_entries {x : Settled × Nat} (mem : x ∈ m.entries) : x.2 < m.history.length :=
  (List.mem_zipIdx' mem).1

/-- As many entries are newer than the first of some as there are others of them. -/
theorem lt_of_cons_sublist {x : Settled × Nat} {rest : List (Settled × Nat)} (sublist : (x :: rest).Sublist m.entries) :
    x.2 + rest.length < m.history.length := by
  obtain ⟨before, after, split, mem, later⟩ := List.cons_sublist_iff.mp sublist
  obtain ⟨i, lt, rfl⟩ := List.getElem_of_mem mem
  have whole : m.history.length = before.length + after.length := by
    rw [← List.length_append, ← split, entries, List.length_zipIdx]
  have number : before[i].2 = i := by
    have here : m.entries[i]? = some before[i] := by
      rw [split, List.getElem?_append_left lt, List.getElem?_eq_getElem lt]
    rw [entries, List.getElem?_zipIdx] at here
    obtain ⟨s, -, same⟩ := Option.map_eq_some_iff.mp here
    rw [← same, Nat.zero_add]
  have := later.length_le
  omega

/-- Among distinct items, to erase the first of a kind is to leave out that one. -/
theorem eraseP_eq_filter {α : Type} [DecidableEq α] {items : List α} (distinct : items.Nodup) {p : α → Bool} {x : α}
    (found : items.find? p = some x) : items.eraseP p = items.filter (· ≠ x) := by
  induction items with
  | nil => cases found
  | cons y rest ih =>
    obtain ⟨new, distinct⟩ := List.nodup_cons.mp distinct
    by_cases hit : p y
    · rw [List.find?_cons_of_pos hit] at found
      cases found
      have others : rest.filter (· ≠ x) = rest := by
        refine List.filter_eq_self.mpr fun z mem => decide_eq_true ?_
        rintro rfl
        exact new mem
      rw [List.eraseP_cons_of_pos hit, List.filter_cons_of_neg (by simp), others]
    · rw [List.find?_cons_of_neg hit] at found
      have other : y ≠ x := fun same => hit (same ▸ List.find?_some found)
      rw [List.eraseP_cons_of_neg hit, List.filter_cons_of_pos (by simpa using other), ih distinct found]

namespace Window

theorem empty : empty.Window where
  latest := List.suffix_refl _
  bounded := Nat.zero_le _
  aged := nofun
  distinct := List.nodup_nil
  repeated := nofun

variable (h : m.Window)
include h

theorem sublist : m.kept.Sublist m.entries := h.latest.sublist.trans List.filter_sublist

theorem untaken_remember (s : Settled) : (m.remember s).untaken = m.untaken ++ [(s, m.history.length)] := by
  have new : (s, m.history.length) ∉ m.takenEntries := by
    intro mem
    obtain ⟨a, taken, same⟩ := List.mem_map.mp mem
    have lt := lt_of_mem_entries (h.repeated a taken).1
    rw [same] at lt
    exact Nat.lt_irrefl _ lt
  have entries : (m.remember s).entries = m.entries ++ [(s, m.history.length)] := by
    simp [Recollection.entries, remember, List.zipIdx_append]
  have taken : (m.remember s).takenEntries = m.takenEntries := rfl
  have stays : [(s, m.history.length)].filter (· ∉ m.takenEntries) = [(s, m.history.length)] := by simp [new]
  rw [untaken, entries, taken, List.filter_append, stays]
  rfl

theorem remember (s : Settled) : (m.remember s).Window where
  latest := by
    rw [h.untaken_remember]
    have kept : (if m.kept.length = Pairing.memory then m.kept.tail else m.kept) <:+ m.untaken := by
      split
      · exact (List.tail_suffix _).trans h.latest
      · exact h.latest
    obtain ⟨before, split⟩ := kept
    exact ⟨before, by rw [← split, List.append_assoc]; rfl⟩
  bounded := Pairing.length_push_le h.bounded _
  aged := by
    rw [h.untaken_remember]
    intro x mem gone
    have history : (m.remember s).history.length = m.history.length + 1 := by simp [Recollection.remember]
    have kept : (m.remember s).kept = push m.kept (s, m.history.length) := rfl
    rw [kept, push, List.mem_append, not_or] at gone
    have old : x ∈ m.untaken := (List.mem_append.mp mem).resolve_right gone.2
    rw [history]
    by_cases waits : x ∈ m.kept
    · -- it is the one that there is no room for
      have full : m.kept.length = Pairing.memory := by
        by_contra room
        rw [if_neg room] at gone
        exact gone.1 waits
      rw [if_pos full] at gone
      obtain ⟨y, rest, split⟩ := List.exists_cons_of_ne_nil (List.ne_nil_of_mem waits)
      rw [split] at waits gone full
      have first := (List.mem_cons.mp waits).resolve_right gone.1
      have newer := lt_of_cons_sublist (split ▸ h.sublist)
      rw [List.length_cons] at full
      rw [first]
      omega
    · have := h.aged x old waits
      omega
  distinct := h.distinct
  repeated := by
    intro a mem
    obtain ⟨known, repeats⟩ := h.repeated a mem
    refine ⟨?_, repeats⟩
    simp only [entries, Recollection.remember, List.zipIdx_append]
    exact List.mem_append_left _ known

theorem take (c : Call) : (m.take c).Window := by
  unfold Recollection.take
  cases found : m.kept.find? (c.repeats ·.1) with
  | none => exact h
  | some x =>
    have repeats := List.find?_some found
    have kept : x ∈ m.kept := List.mem_of_find?_eq_some found
    obtain ⟨known, untouched⟩ := List.mem_filter.mp (h.latest.mem kept)
    have untouched : x ∉ m.takenEntries := of_decide_eq_true untouched
    have erased := eraseP_eq_filter (h.sublist.nodup m.nodup_entries) found
    have untaken : m.entries.filter (· ∉ m.takenEntries ++ [x]) = m.untaken.filter (· ≠ x) := by
      rw [Recollection.untaken, List.filter_filter]
      apply List.filter_congr
      intro y _
      simp [and_comm]
    have taken : (m.taken ++ [(c, x)]).map Prod.snd = m.takenEntries ++ [x] := by simp [takenEntries]
    rw [erased]
    constructor
    case latest =>
      rw [Recollection.untaken, takenEntries, taken]
      exact untaken ▸ h.latest.filter _
    case bounded => exact Nat.le_trans (List.length_filter_le _ _) h.bounded
    case aged =>
      rw [Recollection.untaken, takenEntries, taken]
      intro y mem gone
      have mem : y ∈ m.untaken.filter (· ≠ x) := untaken ▸ mem
      obtain ⟨old, other⟩ := List.mem_filter.mp mem
      exact h.aged y old fun waits => gone (List.mem_filter.mpr ⟨waits, other⟩)
    case distinct =>
      rw [takenEntries, taken, List.nodup_append]
      refine ⟨h.distinct, by simp, ?_⟩
      intro y mem z same
      rw [List.mem_singleton.mp same]
      rintro rfl
      exact untouched mem
    case repeated =>
      intro a mem
      rcases List.mem_append.mp mem with mem | mem
      · exact h.repeated a mem
      · rw [List.mem_singleton.mp mem]
        exact ⟨known, repeats⟩

/-- What is kept reaches back beyond what the memory has room for by no more entries than have been taken. -/
theorem kept_sublist : m.kept.Sublist (m.entries.drop (m.entries.length - (Pairing.memory + m.taken.length))) := by
  obtain ⟨older, split⟩ := h.latest
  obtain ⟨before, later, whole, -, kept⟩ := List.filter_eq_append_iff.mp split.symm
  have nodup : later.Nodup := (List.nodup_append.mp (whole ▸ m.nodup_entries)).2.1
  have taken : (later.filter fun x => !decide (x ∉ m.takenEntries)).length ≤ m.takenEntries.length := by
    apply (nodup.filter _).length_le_of_subset
    intro x mem
    simpa using (List.mem_filter.mp mem).2
  have few : later.length ≤ Pairing.memory + m.taken.length := by
    have bounded := h.bounded
    rw [takenEntries, List.length_map] at taken
    rw [← kept] at bounded
    rw [List.length_eq_length_filter_add (fun x => decide (x ∉ m.takenEntries))]
    exact Nat.add_le_add bounded taken
  have early : m.entries.length - (Pairing.memory + m.taken.length) ≤ before.length := by
    rw [whole, List.length_append]
    omega
  have latest : later = m.entries.drop before.length := by rw [whole, List.drop_left]
  have within : m.kept.Sublist later := kept ▸ List.filter_sublist
  exact (latest ▸ within).trans (List.drop_sublist_drop_left m.entries early)

/-- Of as many entries as the memory has room for, the latest, those that are not kept were taken. -/
theorem taken_of_recent {x : Settled × Nat} (recent : x ∈ m.entries.drop (m.entries.length - Pairing.memory))
    (gone : x ∉ m.kept) : x ∈ m.takenEntries := by
  by_contra untouched
  have old := h.aged x (List.mem_filter.mpr ⟨List.mem_of_mem_drop recent, decide_eq_true untouched⟩) gone
  obtain ⟨i, lt, rfl⟩ := List.getElem_of_mem recent
  have length : m.entries.length = m.history.length := List.length_zipIdx
  simp only [List.getElem_drop, entries, List.getElem_zipIdx, List.length_zipIdx] at old
  omega

end Window

/-! ## Calls -/

/-- The numbered memory after some calls is that of the pairing. -/
structure Records (m : Recollection) (p : Pairing) : Prop extends m.Window where
  settled : p.settled = m.kept.map Prod.fst

theorem records_start (grace : Duration) : empty.Records (.start grace) where
  toWindow := .empty
  settled := rfl

theorem foldl_remember (window : m.Window) (settled : List Settled) :
    (settled.foldl remember m).Window ∧
      (settled.foldl remember m).history = m.history ++ settled ∧
      (settled.foldl remember m).taken = m.taken ∧
      (settled.foldl remember m).kept.map Prod.fst = settled.foldl push (m.kept.map Prod.fst) := by
  induction settled generalizing m with
  | nil => exact ⟨window, by simp, rfl, rfl⟩
  | cons s rest ih =>
    obtain ⟨window, history, taken, kept⟩ := ih (window.remember s)
    refine ⟨window, ?_, taken, ?_⟩
    · rw [List.foldl_cons, history, remember, List.append_assoc]
      rfl
    · rw [List.foldl_cons, kept, List.foldl_cons, remember, Pairing.map_push]

theorem take_of_any {c : Call} (known : m.kept.any (c.repeats ·.1)) :
    ∃ x, m.take c = { m with kept := m.kept.eraseP (c.repeats ·.1), taken := m.taken ++ [(c, x)] } := by
  obtain ⟨x, found⟩ := Option.isSome_iff_exists.mp (List.find?_isSome.mpr (List.any_eq_true.mp known))
  refine ⟨x, ?_⟩
  rw [take, found]

section
variable {p : Pairing} (h : m.Records p)
include h

/-- What a call does to the numbered memory: the entry that a swallowed signal repeats is taken, and the renames that
are settled are remembered. -/
theorem Records.call (c : Call) : (m.call p c).Records (p.call c).2 ∧
    (m.call p c).history = m.history ++ p.settles c ∧
    (m.call p c).taken.map Prod.fst = m.taken.map Prod.fst ++ (if p.Swallows c then [c] else []) := by
  have after := p.settled_call c
  by_cases swallows : p.Swallows c
  · have known : m.kept.any (c.repeats ·.1) := by
      have known := swallows.any
      rw [h.settled, List.any_map] at known
      exact known
    obtain ⟨x, taken⟩ := take_of_any known
    have window := h.toWindow.take c
    have nothing : p.settles c = [] := Pairing.settles_of_swallows swallows
    rw [if_pos swallows, h.settled, List.eraseP_map] at after
    rw [Recollection.call, if_pos swallows, if_pos swallows, nothing, List.append_nil]
    rw [taken] at window ⊢
    exact ⟨⟨window, after⟩, rfl, by simp⟩
  · obtain ⟨window, history, taken, kept⟩ := foldl_remember h.toWindow (p.settles c)
    rw [if_neg swallows, h.settled, ← kept] at after
    rw [Recollection.call, if_neg swallows, if_neg swallows, List.append_nil, taken]
    exact ⟨⟨window, after⟩, history, rfl⟩

theorem Records.run (calls : List Call) : (m.run p calls).Records (p.run calls).2 ∧
    (m.run p calls).history = m.history ++ p.settlements calls ∧
    (m.run p calls).taken.map Prod.fst = m.taken.map Prod.fst ++ p.swallowed calls := by
  induction calls generalizing m p with
  | nil => exact ⟨h, by simp [Pairing.settlements, Recollection.run], by simp [Pairing.swallowed, Recollection.run]⟩
  | cons c rest ih =>
    obtain ⟨first, history, taken⟩ := h.call c
    obtain ⟨records, historyAll, takenAll⟩ := ih first
    refine ⟨records, ?_, ?_⟩
    · rw [Recollection.run, historyAll, history, Pairing.settlements, List.append_assoc]
    · rw [Recollection.run, takenAll, taken, Pairing.swallowed, List.append_assoc]

end

end Recollection

namespace Pairing

/-- The memory of settled renames after any calls. It has its bounded size and keeps the latest of what no signal has
taken, so that it goes back beyond that size by no more than has been taken. Of the latest renames, as many as there is
room for, one is missing only if one swallowed signal has taken it. Each swallowed signal takes one entry, the oldest
that it repeats, and no entry is taken twice. -/
theorem remembers_latest (grace : Duration) (calls : List Call) :
    let p := ((start grace).run calls).2
    let m := Recollection.after grace calls
    let history := (start grace).settlements calls
    p.settled = m.kept.map Prod.fst ∧ m.taken.map Prod.fst = (start grace).swallowed calls ∧
    p.settled.length ≤ memory ∧
    m.kept <:+ history.zipIdx.filter (· ∉ m.taken.map Prod.snd) ∧
    p.settled.Sublist (history.drop (history.length - (memory + ((start grace).swallowed calls).length))) ∧
    (∀ x ∈ history.zipIdx.drop (history.length - memory), x ∉ m.kept → ∃! a, a ∈ m.taken ∧ a.2 = x) ∧
    (m.taken.map Prod.snd).Nodup ∧
    (∀ a ∈ m.taken, a.2 ∈ history.zipIdx ∧ a.1.repeats a.2.1) ∧
    ∀ c, p.Swallows c → ∃ before x after, p.settled = before ++ x :: after ∧ c.repeats x ∧
      (∀ y ∈ before, ¬ c.repeats y) ∧ (p.call c).2.settled = before ++ after := by
  intro p m history
  obtain ⟨records, all, taken⟩ :
      m.Records p ∧ m.history = history ∧ m.taken.map Prod.fst = (start grace).swallowed calls :=
    (Recollection.records_start grace).run calls
  have entries : m.entries = history.zipIdx := by rw [Recollection.entries, all]
  have length : history.zipIdx.length = history.length := List.length_zipIdx
  have settled : p.settled = m.kept.map Prod.fst := records.settled
  refine ⟨settled, taken, ?_, ?_, ?_, ?_, records.distinct, ?_, ?_⟩
  · rw [settled, List.length_map]
    exact records.bounded
  · rw [← entries]
    exact records.latest
  · have sublist := records.kept_sublist.map Prod.fst
    rw [List.map_drop, entries, List.zipIdx_map_fst, length] at sublist
    rw [settled, ← taken, List.length_map]
    exact sublist
  · intro x recent gone
    rw [← length, ← entries] at recent
    obtain ⟨a, mem, same⟩ := List.mem_map.mp (records.taken_of_recent recent gone)
    refine ⟨a, ⟨mem, same⟩, ?_⟩
    rintro b ⟨mem', same'⟩
    exact List.inj_on_of_nodup_map records.distinct mem' mem (same'.trans same.symm)
  · rw [← entries]
    exact records.repeated
  · intro c swallows
    obtain ⟨x, known, repeats⟩ := List.any_eq_true.mp swallows.any
    obtain ⟨y, before, after, others, hit, split, erased⟩ := List.exists_of_eraseP known repeats
    refine ⟨before, y, after, split, hit, others, ?_⟩
    rw [settled_call, if_pos swallows, erased]

/-! There is room for 64 renames. Of 64 the second is taken, and so the first is still remembered after one more. -/
namespace Reaching

def t : Tree := .empty []

def arrivals (paths : List Path) : Call := .signal t ⟨.rename .arrived, paths, some 7, false⟩ 0

def repeated (dest : Path) : Call := .signal t ⟨.rename .both, [lettered 0, dest], some 7, false⟩ 0

def calls : List Call := [arrivals ((List.range' 1 64).map lettered), repeated (lettered 2), arrivals [lettered 65]]

/-- The first rename is remembered and is none of the last 64. -/
theorem remembers_older : ¬ ((start 50).run calls).2.settled.Sublist
    (((start 50).settlements calls).drop (((start 50).settlements calls).length - memory)) := by
  have first : Settled.arrived 7 (lettered 1) ∈ ((start 50).run calls).2.settled := by decide +kernel
  have old : Settled.arrived 7 (lettered 1) ∉
      ((start 50).settlements calls).drop (((start 50).settlements calls).length - memory) := by decide +kernel
  exact fun sublist => old (sublist.subset first)

def second : Settled × Nat := (.arrived 7 (lettered 2), 1)

theorem takes_second :
    second ∈ ((start 50).settlements calls).zipIdx.drop (((start 50).settlements calls).length - memory) ∧
    second ∉ (Recollection.after 50 calls).kept ∧
    (∃! a, a ∈ (Recollection.after 50 calls).taken ∧ a.2 = second) ∧
    ((start 50).run calls).2.Swallows (repeated (lettered 1)) ∧
    ∃ before x after, ((start 50).run calls).2.settled = before ++ x :: after ∧ (repeated (lettered 1)).repeats x ∧
      (∀ y ∈ before, ¬ (repeated (lettered 1)).repeats y) ∧
      (((start 50).run calls).2.call (repeated (lettered 1))).2.settled = before ++ after := by
  obtain ⟨-, -, -, -, -, missing, -, -, one⟩ := remembers_latest 50 calls
  have recent : second ∈ ((start 50).settlements calls).zipIdx.drop
      (((start 50).settlements calls).length - memory) := by decide +kernel
  have gone : second ∉ (Recollection.after 50 calls).kept := by decide +kernel
  have swallows : ((start 50).run calls).2.Swallows (repeated (lettered 1)) := by decide +kernel
  exact ⟨recent, gone, missing second recent gone, swallows, one _ swallows⟩

end Reaching

end Pairing
end StyleFeed
