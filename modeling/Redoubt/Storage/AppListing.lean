import Redoubt.Storage.AppAgreement
import Mathlib.Data.Finset.Card

/-!
# Listing the applications

The count of a listing looks for names that do not occur earlier in the list, the index
for entries that are the best of their name.  Both count the same set of names.
-/

namespace Redoubt.Storage

open Redoubt.Foundation Redoubt.Crypto

/-- The names of some entries. -/
def names (entries : List AppEntry) : Finset (List UInt8) := (entries.map (·.label)).toFinset

theorem mem_names {entries : List AppEntry} {name : List UInt8} :
    name ∈ names entries ↔ ∃ entry ∈ entries, entry.label = name := by
  rw [names, List.mem_toFinset, List.mem_map]

theorem names_cons (entry : AppEntry) (rest : List AppEntry) :
    names (entry :: rest) = insert entry.label (names rest) := by
  rw [names, List.map_cons, List.toFinset_cons, names]

theorem names_concat (seen : List AppEntry) (entry : AppEntry) :
    names (seen ++ [entry]) = insert entry.label (names seen) := by
  ext name
  simp only [mem_names, Finset.mem_insert, List.mem_append, List.mem_singleton]
  constructor
  · rintro ⟨other, hseen | rfl, rfl⟩
    · exact .inr ⟨other, hseen, rfl⟩
    · exact .inl rfl
  · rintro (rfl | ⟨other, hseen, rfl⟩)
    · exact ⟨entry, .inr rfl, rfl⟩
    · exact ⟨other, .inl hseen, rfl⟩

theorem any_sameAppName {seen : List AppEntry} {name : List UInt8} :
    seen.any (sameAppName · name) = true ↔ name ∈ names seen := by
  rw [List.any_eq_true, mem_names]
  simp only [sameAppName_iff]

/-- Names already seen are not counted again. -/
theorem countNames_eq (seen rest : List AppEntry) :
    countNames seen rest = (names rest \ names seen).card := by
  induction rest generalizing seen with
  | nil => simp [countNames, names]
  | cons entry rest ih =>
      rw [countNames, ih, names_concat, names_cons]
      by_cases hseen : entry.label ∈ names seen
      · rw [if_pos (any_sameAppName.mpr hseen), Nat.zero_add, Finset.insert_eq_of_mem hseen,
          Finset.insert_sdiff_of_mem _ hseen]
      · have hsplit : insert entry.label (names rest) \ names seen =
            insert entry.label (names rest \ insert entry.label (names seen)) := by
          ext name
          by_cases hname : name = entry.label
          · subst hname
            simp [hseen]
          · simp [hname]
        have hfresh : entry.label ∉ names rest \ insert entry.label (names seen) := by
          rw [Finset.mem_sdiff, Finset.mem_insert]
          exact fun h => h.2 (.inl rfl)
        rw [if_neg fun h => hseen (any_sameAppName.mp h), hsplit, Finset.card_insert_of_notMem hfresh,
          Nat.add_comm]

theorem appUniqueCount_eq (st : State) : appUniqueCount st = (names st.apps).card := by
  rw [appUniqueCount, countNames_eq]
  rfl

/-! ### The best entries -/

/-- The entries an index runs over. -/
def bestEntries (st : State) : List AppEntry :=
  st.apps.filter fun entry => (bestApp st entry.label).map (·.slot) == some entry.slot

theorem appAtIndex_eq (st : State) (want : Nat) : appAtIndex st want = (bestEntries st)[want]? := rfl

section Distinct

variable {st : State}

/-- With one entry for each slot, the slot of the best entry is its own. -/
theorem mem_bestEntries (distinct : (st.apps.map (·.slot)).Nodup) {entry : AppEntry} :
    entry ∈ bestEntries st ↔ bestApp st entry.label = some entry := by
  rw [bestEntries, List.mem_filter, beq_iff_eq, Option.map_eq_some_iff]
  constructor
  · rintro ⟨hmem, best, hbest, hslot⟩
    rw [hbest, List.inj_on_of_nodup_map distinct (bestApp_mem hbest).1 hmem hslot]
  · intro hbest
    exact ⟨(bestApp_mem hbest).1, entry, hbest, rfl⟩

theorem bestEntries_nodup (distinct : (st.apps.map (·.slot)).Nodup) :
    ((bestEntries st).map (·.label)).Nodup := by
  refine List.Nodup.map_on ?_ ((List.Nodup.of_map _ distinct).filter _)
  intro entry hentry other hother hlabel
  have hfirst := (mem_bestEntries distinct).mp hentry
  have hsecond := (mem_bestEntries distinct).mp hother
  rw [hlabel, hsecond] at hfirst
  exact (Option.some.inj hfirst).symm

theorem names_bestEntries (distinct : (st.apps.map (·.slot)).Nodup) :
    names (bestEntries st) = names st.apps := by
  ext name
  rw [mem_names, mem_names]
  constructor
  · rintro ⟨entry, hentry, hname⟩
    exact ⟨entry, (bestApp_mem ((mem_bestEntries distinct).mp hentry)).1, hname⟩
  · rintro ⟨entry, hentry, hname⟩
    obtain ⟨best, hbest, -⟩ := bestApp_max hentry hname
    have hlabel := (bestApp_mem hbest).2
    exact ⟨best, (mem_bestEntries distinct).mpr (by rw [hlabel, hbest]), hlabel⟩

theorem length_bestEntries (distinct : (st.apps.map (·.slot)).Nodup) :
    (bestEntries st).length = appUniqueCount st := by
  rw [appUniqueCount_eq, ← names_bestEntries distinct, names,
    List.toFinset_card_of_nodup (bestEntries_nodup distinct), List.length_map]

/-- The indices below the count list every name once, each with its best entry. -/
theorem app_enumeration (distinct : (st.apps.map (·.slot)).Nodup) :
    (∀ index, (appAtIndex st index).isSome = true ↔ index < appUniqueCount st) ∧
    (∀ index other entry entry', appAtIndex st index = some entry → appAtIndex st other = some entry' →
      index ≠ other → entry.label ≠ entry'.label) ∧
    (∀ app ∈ st.apps, ∃ index < appUniqueCount st, ∃ entry, appAtIndex st index = some entry ∧
      entry.label = app.label) ∧
    ∀ index entry, appAtIndex st index = some entry → bestApp st entry.label = some entry ∧
      ∀ app ∈ st.apps, app.label = entry.label → app.version ≤ entry.version := by
  refine ⟨fun index => ?_, ?_, ?_, ?_⟩
  · rw [appAtIndex_eq, ← length_bestEntries distinct, Option.isSome_iff_exists]
    simp only [List.getElem?_eq_some_iff]
    exact ⟨fun ⟨_, h, _⟩ => h, fun h => ⟨_, h, rfl⟩⟩
  · intro index other entry entry' hentry hentry' hne hlabel
    rw [appAtIndex_eq] at hentry hentry'
    refine hne ((List.getElem?_inj ?_ (bestEntries_nodup distinct)).mp ?_)
    · rw [List.length_map]
      exact (List.getElem?_eq_some_iff.mp hentry).1
    · rw [List.getElem?_map, List.getElem?_map, hentry, hentry', Option.map_some, Option.map_some, hlabel]
  · intro app happ
    have hname : app.label ∈ names (bestEntries st) := by
      rw [names_bestEntries distinct, mem_names]
      exact ⟨app, happ, rfl⟩
    obtain ⟨entry, hentry, hlabel⟩ := mem_names.mp hname
    obtain ⟨index, hindex, hget⟩ := List.mem_iff_getElem.mp hentry
    refine ⟨index, by rw [← length_bestEntries distinct]; exact hindex, entry, ?_, hlabel⟩
    rw [appAtIndex_eq, List.getElem?_eq_some_iff]
    exact ⟨hindex, hget⟩
  · intro index entry hentry
    have hbest := (mem_bestEntries distinct).mp (List.mem_of_getElem? hentry)
    refine ⟨hbest, fun app happ hlabel => ?_⟩
    obtain ⟨best, hfound, hle⟩ := bestApp_max happ hlabel
    rw [hbest] at hfound
    rw [Option.some.inj hfound]
    exact hle

end Distinct

/-- Two versions of one name are listed as one application, the newer one. -/
theorem app_enumeration_pair : ∃ st d,
    boot World.faultless true samplePublic (Dev.fresh pairVolume) = (st, d) ∧ appUniqueCount st = 1 ∧
      ∃ entry, appAtIndex st 0 = some entry ∧ entry.version = 3 := by
  obtain ⟨st, d, first, second, hboot, -, -, -, happs, hfirst, hsecond, -⟩ :=
    pair_boot pairVolume_prepared
  have hlabel : first.label = ascii "demo" := (congrArg AppView.label hfirst).trans demoThree_label
  have hlabel' : second.label = ascii "demo" := (congrArg AppView.label hsecond).trans demoTwo_label
  have hslot : first.slot = 0 := congrArg AppView.slot hfirst
  have hslot' : second.slot = 1 := congrArg AppView.slot hsecond
  have hdistinct : (st.apps.map (·.slot)).Nodup := by
    rw [happs, List.map_cons, List.map_singleton, hslot, hslot']
    decide
  have hcount : appUniqueCount st = 1 := by
    rw [appUniqueCount_eq, happs, names_cons, names_cons, hlabel, hlabel']
    rfl
  obtain ⟨-, -, hcovers, hbest⟩ := app_enumeration hdistinct
  obtain ⟨index, hindex, entry, hentry, hname⟩ := hcovers first (by rw [happs]; exact List.mem_cons_self)
  obtain rfl : index = 0 := by omega
  have hdemo := bestApp_pair happs hfirst hsecond
  rw [← hlabel, ← hname, (hbest 0 entry hentry).1] at hdemo
  refine ⟨st, d, hboot, hcount, entry, hentry, ?_⟩
  rw [Option.some.inj hdemo]
  exact congrArg AppView.version hfirst

end Redoubt.Storage
