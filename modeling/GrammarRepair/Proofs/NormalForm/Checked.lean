import GrammarRepair.NormalForm.Checked
import GrammarRepair.Proofs.Checked
import GrammarRepair.Proofs.NormalForm.Language

/-!
What the passes to normal form rely on. Links are pairs, so splitting them adds no more links. The
passes before the last leave single rules, single tokens and pairs of rules, and every rule that a
production mentions has a row. Main statement: the checked passes find nothing wrong with a grammar
that is in order.
-/

namespace GrammarRepair

namespace NormalForm

theorem Chained.length_links_le {body rest : List Sym} {links : Table}
    (h : Chained body (rest, links)) : links.length ≤ body.length := by
  generalize hparts : (rest, links) = parts at h
  induction h generalizing rest links with
  | short h =>
    cases hparts
    exact Nat.zero_le _
  | link hbody hlong h ih =>
    cases hparts
    exact Nat.succ_le_succ (ih rfl)

theorem length_flatMap_links_le {bodies : List (List Sym)} {chained : List (List Sym × Table)}
    (h : List.Forall₂ Chained bodies chained) :
    (chained.flatMap (·.2)).length ≤ bodies.flatten.length := by
  induction h with
  | nil => exact Nat.le_refl 0
  | cons hbody h ih =>
    rw [List.flatMap_cons, List.length_append, List.flatten_cons, List.length_append]
    exact Nat.add_le_add hbody.length_links_le ih

namespace Linking

theorem links_chainRow (row : Row) (taken : List String) :
    (chainRow row taken).1.2.AllBodies (·.length ≤ 2) ∧
      (chainRow row taken).1.2.length ≤ row.bodies.flatten.length := by
  have hrow := chainedRow_chainRow row taken
  refine ⟨fun link hlink body hbody => ?_, ?_⟩
  · obtain ⟨pair, hpair, hlength⟩ := single_of_chainedRow hrow link hlink
    rw [hpair, List.mem_singleton] at hbody
    exact Nat.le_of_eq (hbody ▸ hlength)
  · obtain ⟨-, chained, hchained, -, hlinks⟩ := hrow
    rw [hlinks]
    exact length_flatMap_links_le hchained

theorem chainBody_short {body : List Sym} (h : body.length ≤ 2) (owner : String) (s : Linking) :
    chainBody owner body s = ((body, []), s) := by
  fun_cases chainBody owner body s with
  | case1 x y z more => simp at h
  | case2 => rfl

theorem chainRow_short {row : Row} (h : ∀ body ∈ row.bodies, body.length ≤ 2)
    (taken : List String) : chainRow row taken = ((row, []), taken) := by
  have hbodies : mapState (chainBody row.name) row.bodies ⟨0, taken⟩ =
      (row.bodies.map fun body => (body, []), ⟨0, taken⟩) :=
    mapState_eq_map fun body hbody => chainBody_short (h body hbody) row.name _
  simp [chainRow, hbodies, Function.comp_def]

end Linking

/-- A table as the last pass expects it. -/
structure Table.Binary (t : Table) : Prop where
  wellFormed : t.WellFormed
  isolated : t.AllBodies Isolated
  short : t.AllBodies (·.length ≤ 2)

theorem Table.WellFormed.binary {t : Table} (ht : t.WellFormed) :
    (NormalForm.binaryTable t).Binary where
  wellFormed := ht.binaryTable
  isolated := ht.replaceTokens.isolated_splitLong ht.isolated_replaceTokens
  short := ht.replaceTokens.length_splitLong

end NormalForm

namespace Checked

open NormalForm

variable {t : Table} {n : String}

theorem splitRows_short {links : Table} (h : links.AllBodies (·.length ≤ 2)) {steps : Nat}
    (hsteps : links.length ≤ steps) (taken : List String) :
    splitRows steps links taken = .ok links := by
  induction links generalizing steps with
  | nil => cases steps <;> rfl
  | cons link links ih =>
    cases steps with
    | zero => simp at hsteps
    | succ steps =>
      have hrest := ih (fun row hrow => h row (List.mem_cons_of_mem _ hrow))
        (Nat.le_of_succ_le_succ hsteps)
      simp only [splitRows, Linking.chainRow_short (h link (by simp)), List.append_nil, hrest,
        ok_bind]
      rfl

/-- Links wait behind the rows, and stay as they are when their turn comes. -/
theorem splitRows_ok {links : Table} (h : links.AllBodies (·.length ≤ 2)) {steps : Nat}
    (hsteps : splitLimit t + links.length ≤ steps) (taken : List String) :
    splitRows steps (t ++ links) taken =
      .ok ((mapState Linking.chainRow t taken).1.map (·.1) ++
        (links ++ (mapState Linking.chainRow t taken).1.flatMap (·.2))) := by
  induction t generalizing links steps taken with
  | nil => simpa using splitRows_short h (by simpa [splitLimit] using hsteps) taken
  | cons row t ih =>
    rw [splitLimit, List.length_cons, List.flatMap_cons, List.length_append] at hsteps
    obtain ⟨steps, rfl⟩ : ∃ n, steps = n + 1 := ⟨steps - 1, by omega⟩
    obtain ⟨hshort, hlength⟩ := Linking.links_chainRow row taken
    have hlinks : Table.AllBodies (links ++ (Linking.chainRow row taken).1.2) (·.length ≤ 2) := by
      intro link hlink
      rcases List.mem_append.1 hlink with hlink | hlink
      · exact h link hlink
      · exact hshort link hlink
    have hfewer : splitLimit t + (links ++ (Linking.chainRow row taken).1.2).length ≤ steps := by
      rw [splitLimit, List.length_append]
      omega
    have hrest := ih hlinks hfewer (Linking.chainRow row taken).2
    rw [List.append_assoc] at hrest
    simp only [List.cons_append, splitRows, List.append_assoc, hrest, ok_bind, mapState_cons,
      List.map_cons, List.flatMap_cons]
    rfl

theorem splitLong_ok (t : Table) : splitLong t = .ok (NormalForm.splitLong t) := by
  have hnone : Table.AllBodies [] (·.length ≤ 2) := fun link hlink => by cases hlink
  have hsplit := splitRows_ok (t := t) hnone (Nat.le_refl _) t.names
  rw [List.append_nil] at hsplit
  exact hsplit

theorem isShaped_of_binary (ht : t.Binary) {body : List Sym} (h : body ∈ t.bodiesOf n) :
    isShaped body = true := by
  rcases ht.wellFormed.unit_or_named ht.isolated ht.short h with ⟨m, rfl⟩ | ⟨b, rfl⟩
  · rfl
  · rw [isShaped, namedBody?_symbols, Option.isSome_some, Bool.or_true]

theorem bodiesOf_ok (ht : t.Binary) (hn : n ∈ t.names) : bodiesOf t n = .ok (t.bodiesOf n) := by
  obtain ⟨row, hrow, rfl⟩ := List.mem_map.1 hn
  have hsome : (t.find? (·.name == row.name)).isSome := List.find?_isSome.2 ⟨row, hrow, by simp⟩
  obtain ⟨found, hfound⟩ := Option.isSome_iff_exists.1 hsome
  have hbodies : t.bodiesOf row.name = found.bodies := by rw [Table.bodiesOf, hfound]
  have hall : found.bodies.all isShaped = true :=
    List.all_eq_true.2 fun body hbody => isShaped_of_binary ht (hbodies ▸ hbody)
  rw [bodiesOf, hfound, hbodies]
  exact if_pos hall

theorem unitClosure_ok (ht : t.Binary) (hn : n ∈ t.names) :
    unitClosure t n = .ok (t.unitClosure n) := by
  have hlength : t.names.length ≤ t.length := by simp [Table.names]
  refine explore_ok (fun m hm => ?_) (fun m _ k hk => ?_) ?_ hlength
  · rw [bodiesOf_ok ht hm]
    rfl
  · exact ht.wellFormed.mem_names_of_hasUnit (Table.mem_units_iff.1 hk)
  · rintro m hm
    rwa [List.mem_singleton.1 hm]

theorem closedBodies_ok (ht : t.Binary) (hn : n ∈ t.names) :
    closedBodies t n = .ok (t.closedBodies n) := by
  have hmem : ∀ m ∈ t.unitClosure n, m ∈ t.names := by
    intro m hm
    rcases ((ht.wellFormed.mem_unitClosure_iff hn).1 hm).cases_tail with rfl | ⟨k, -, hunit⟩
    · exact hn
    · exact ht.wellFormed.mem_names_of_hasUnit hunit
  rw [closedBodies, unitClosure_ok ht hn, ok_bind,
    mapM_ok fun m hm => bodiesOf_ok ht (hmem m hm), ok_bind, List.flatMap_map]
  rfl

theorem dropUnits_ok (ht : t.Binary) : dropUnits t = .ok (NormalForm.dropUnits t) := by
  refine mapM_ok fun row hrow => ?_
  rw [closedBodies_ok ht (Table.mem_names hrow)]
  rfl

theorem normalForm_ok {g : Written} (h : g.InOrder) : normalForm g = .ok (ofWritten g) := by
  have hrows := dropUnits_ok (wellFormed_tableOf h).binary
  rw [binaryTable] at hrows
  rw [normalForm, splitLong_ok, ok_bind, hrows]
  rfl

end Checked

end GrammarRepair
