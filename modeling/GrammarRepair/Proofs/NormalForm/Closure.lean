import GrammarRepair.Proofs.NormalForm.Checked

/-!
What a rule is given for its single-rule productions. Chains of such productions may run in circles,
and a rule may even be a production of itself. Main statement: for a table of single rules, single
tokens and pairs of rules that are all there, the last pass is done in time, gives every rule the
other productions at the ends of all chains from it, each once, and keeps what every rule derives.
-/

namespace GrammarRepair

namespace NormalForm

variable {t : Table} {n : String}

/-- A single rule, a single token or a pair of rules, where `names` are the rules there are. -/
def Fits (names : List String) (body : List Sym) : Prop :=
  (∃ m ∈ names, body = [.rule m]) ∨ (∃ text, body = [.token text]) ∨
    ∃ left ∈ names, ∃ right ∈ names, body = [.rule left, .rule right]

section

variable {names : List String} {body : List Sym}

theorem Fits.mem_names (h : Fits names body) {m : String} (hm : .rule m ∈ body) : m ∈ names := by
  rcases h with ⟨k, hk, rfl⟩ | ⟨text, rfl⟩ | ⟨left, hleft, right, hright, rfl⟩
  · obtain rfl : m = k := by simpa using hm
    exact hk
  · simp at hm
  · obtain rfl | rfl : m = left ∨ m = right := by simpa using hm
    · exact hleft
    · exact hright

theorem Fits.ne_nil (h : Fits names body) : body ≠ [] := by
  rcases h with ⟨k, -, rfl⟩ | ⟨text, rfl⟩ | ⟨left, -, right, -, rfl⟩ <;> exact List.cons_ne_nil _ _

theorem Fits.isolated (h : Fits names body) : Isolated body := by
  intro hlong x hx
  rcases h with ⟨k, -, rfl⟩ | ⟨text, rfl⟩ | ⟨left, -, right, -, rfl⟩
  · exact absurd hlong (Nat.lt_irrefl 1)
  · exact absurd hlong (Nat.lt_irrefl 1)
  · rcases List.mem_pair.1 hx with rfl | rfl
    · exact ⟨left, rfl⟩
    · exact ⟨right, rfl⟩

theorem Fits.length_le (h : Fits names body) : body.length ≤ 2 := by
  rcases h with ⟨k, -, rfl⟩ | ⟨text, rfl⟩ | ⟨left, -, right, -, rfl⟩
  · exact Nat.le_succ 1
  · exact Nat.le_succ 1
  · exact Nat.le_refl 2

end

theorem Table.binary_of_fits (hnames : t.names.Nodup) (hfits : t.AllBodies (Fits t.names)) :
    t.Binary where
  wellFormed :=
    { nodup := hnames
      closed := fun row hrow body hbody _ => (hfits row hrow body hbody).mem_names
      nonempty := fun row hrow body hbody => (hfits row hrow body hbody).ne_nil }
  isolated := fun row hrow body hbody => (hfits row hrow body hbody).isolated
  short := fun row hrow body hbody => (hfits row hrow body hbody).length_le

theorem NamedBody.symbols_ne_unit (b : NamedBody) (m : String) : b.symbols ≠ [.rule m] := by
  cases b <;> simp [NamedBody.symbols]

theorem NamedBody.symbols_injective : Function.Injective NamedBody.symbols := by
  intro b b' h
  have hsome := namedBody?_symbols b
  rw [h, namedBody?_symbols b'] at hsome
  exact (Option.some.inj hsome).symm

/-- A rule has the productions at the ends of its chains, except those that are a single rule. -/
theorem Table.Binary.mem_symbols_closedBodies_iff (ht : t.Binary) (hn : n ∈ t.names)
    {body : List Sym} : body ∈ (t.closedBodies n).map NamedBody.symbols ↔
      (∃ m, Relation.ReflTransGen t.HasUnit n m ∧ body ∈ t.bodiesOf m) ∧
        ∀ k, body ≠ [.rule k] := by
  rw [List.mem_map]
  constructor
  · rintro ⟨b, hb, rfl⟩
    exact ⟨(ht.wellFormed.mem_closedBodies_iff hn).1 hb, b.symbols_ne_unit⟩
  · rintro ⟨⟨m, hchain, hbody⟩, hunit⟩
    rcases ht.wellFormed.unit_or_named ht.isolated ht.short hbody with ⟨k, rfl⟩ | ⟨b, rfl⟩
    · exact absurd rfl (hunit k)
    · exact ⟨b, (ht.wellFormed.mem_closedBodies_iff hn).2 ⟨m, hchain, hbody⟩, rfl⟩

/-- Dropping single-rule productions is done in time, whatever circles they run in. A rule ends up
with the productions of all rules that chains of them lead to, itself included, each once and none
of them a single rule; and every rule derives what it derived before. -/
theorem dropping_units_closes_rules (t : Table) (hnames : t.names.Nodup)
    (hfits : t.AllBodies (Fits t.names)) :
    ∃ rules, Checked.dropUnits t = .ok rules ∧ rules = dropUnits t ∧
      rules.map Prod.fst = t.names ∧
      (∀ n bodies, (n, bodies) ∈ rules →
        (bodies.map NamedBody.symbols).Nodup ∧
          ∀ body, body ∈ bodies.map NamedBody.symbols ↔
            (∃ m, Relation.ReflTransGen t.HasUnit n m ∧ body ∈ t.bodiesOf m) ∧
              ∀ k, body ≠ [.rule k]) ∧
      ∀ n w, Table.Derives (rules.map rowOf) [.rule n] w ↔ t.Derives [.rule n] w := by
  have ht := Table.binary_of_fits hnames hfits
  refine ⟨dropUnits t, Checked.dropUnits_ok ht, rfl, ?_, ?_, fun n w => ?_⟩
  · rw [dropUnits, List.map_map]
    rfl
  · intro n bodies hmem
    obtain ⟨row, hrow, hpair⟩ := List.mem_map.1 hmem
    obtain ⟨rfl, rfl⟩ := Prod.mk.inj hpair
    exact ⟨(nodup_distinct _).map NamedBody.symbols_injective,
      fun body => ht.mem_symbols_closedBodies_iff (Table.mem_names hrow)⟩
  · exact ht.wellFormed.derives_withoutUnits_iff ht.isolated ht.short

/-- Two rules that lead to each other, one of which is a production of itself too. -/
def circular : Table :=
  [⟨"A", [[.rule "A"], [.rule "B"], [.token "a"]]⟩, ⟨"B", [[.rule "A"], [.rule "A", .rule "B"]]⟩]

theorem dropping_units_closes_circular_rules :
    circular.names.Nodup ∧ circular.AllBodies (Fits circular.names) ∧
      ∃ rules, Checked.dropUnits circular = .ok rules ∧ rules = dropUnits circular ∧
        ∀ n w, Table.Derives (rules.map rowOf) [.rule n] w ↔ circular.Derives [.rule n] w := by
  have hnames : circular.names.Nodup := by decide
  have hfits : circular.AllBodies (Fits circular.names) := by
    intro row hrow body hbody
    simp only [circular, List.mem_cons, List.not_mem_nil, or_false] at hrow
    rcases hrow with rfl | rfl
    · simp only [List.mem_cons, List.not_mem_nil, or_false] at hbody
      rcases hbody with rfl | rfl | rfl
      · exact .inl ⟨"A", by decide, rfl⟩
      · exact .inl ⟨"B", by decide, rfl⟩
      · exact .inr (.inl ⟨"a", rfl⟩)
    · simp only [List.mem_cons, List.not_mem_nil, or_false] at hbody
      rcases hbody with rfl | rfl
      · exact .inl ⟨"A", by decide, rfl⟩
      · exact .inr (.inr ⟨"A", by decide, "B", by decide, rfl⟩)
  obtain ⟨rules, hok, heq, -, -, hderives⟩ := dropping_units_closes_rules circular hnames hfits
  exact ⟨hnames, hfits, rules, hok, heq, hderives⟩

end NormalForm

end GrammarRepair
