import LogFormat.Proofs.Format.Composition
import LogFormat.Proofs.Results
import LogFormat.Proofs.Text.Decimal
import LogFormat.Proofs.Text.Separators

/-!
# The names of columns

Of the fields of the same name the first gives it to its column, and each later one adds its
number to it (`getElem?_columnNames`).  The names of the table have no underscore, and the number
comes after one, so the columns of a compiled format have different names (`nodup_columnNames`).
-/

namespace LogFormat

/-- The table makes fields whose names have no underscore. -/
theorem Directive.Makes.underscore_not_mem {reader : TimeReader} {d : Directive} {field : Field}
    (h : d.Makes reader field) :
  '_' ∉ field.name.toList
  := by
  obtain ⟨e, he, -, hfield⟩ := h
  have hall : ∀ e ∈ directiveTable, '_' ∉ e.field.toList := by decide
  have hname : field.name = e.field := by
    rw [TableEntry.field?] at hfield
    split at hfield
    · cases hfield
      rfl
    · cases hfield
      rfl
    · obtain ⟨layout, -, heq⟩ := bind_eq_ok.1 hfield
      cases heq
      rfl
  rw [hname]
  apply hall e he

namespace Format

/-- The name of a column, given how many columns before it come from fields of the same
name. -/
def label (name : String) (count : Nat) : String :=
  if count = 0 then name else s!"{name}_{count + 1}"

theorem toList_label (name : String) (count : Nat) :
  (label name (count + 1)).toList = name.toList ++ '_' :: Nat.toDigits 10 (count + 2)
  := by
  have hdigits : (toString (count + 2)).toList = Nat.toDigits 10 (count + 2) :=
    String.toList_ofList
  rw [label, if_neg (Nat.succ_ne_zero count)]
  simp only [String.toList_append, hdigits]
  simp [toString]

/-- A name without an underscore and the number are read off the name of the column. -/
theorem label_inj {name name' : String} {count count' : Nat} (hname : '_' ∉ name.toList)
    (hname' : '_' ∉ name'.toList) (h : label name count = label name' count') :
  name = name' ∧ count = count'
  := by
  have htexts := congrArg String.toList h
  cases count with
  | zero =>
    cases count' with
    | zero => exact ⟨h, rfl⟩
    | succ count' =>
      rw [toList_label] at htexts
      change name.toList = _ at htexts
      apply absurd _ hname
      simp [htexts]
  | succ count =>
    cases count' with
    | zero =>
      rw [toList_label] at htexts
      change _ = name'.toList at htexts
      apply absurd _ hname'
      simp [← htexts]
    | succ count' =>
      rw [toList_label, toList_label] at htexts
      obtain ⟨hnames, hdigits⟩ := eq_of_not_mem_left hname hname' htexts
      have hcounts := congrArg digitsValue hdigits
      rw [digitsValue_toDigits, digitsValue_toDigits] at hcounts
      exact ⟨String.toList_inj.1 hnames, Nat.succ.inj hcounts⟩

theorem numbered_cons (before : List String) (name : String) (names : List String) :
  numbered before (name :: names)
    = label name (before.count name) :: numbered (name :: before) names
  := rfl

/-- A name is labelled by how many times it has occurred before. -/
theorem getElem?_numbered (before names : List String) (i : Nat) :
  (numbered before names)[i]?
    = names[i]?.map fun name => label name (before.count name + (names.take i).count name)
  := by
  induction names generalizing before i with
  | nil => rfl
  | cons name names ih =>
    rw [numbered_cons]
    cases i with
    | zero => rfl
    | succ i =>
      simp only [List.getElem?_cons_succ, ih, List.take_succ_cons, List.count_cons]
      congr 1
      funext name'
      congr 1
      omega

/-- A column has a number that is not below the number of columns before it with the same
name. -/
theorem eq_label_of_mem_numbered {before names : List String} {column : String}
    (h : column ∈ numbered before names) :
  ∃ name ∈ names, ∃ count, before.count name ≤ count ∧ column = label name count
  := by
  induction names generalizing before with
  | nil => cases h
  | cons name names ih =>
    rw [numbered_cons, List.mem_cons] at h
    rcases h with rfl | h
    · exact ⟨name, List.mem_cons_self, _, Nat.le_refl _, rfl⟩
    · obtain ⟨name', hname', count, hcount, rfl⟩ := ih h
      have hle := (List.sublist_cons_self name before).count_le name'
      exact ⟨name', List.mem_cons_of_mem _ hname', count, Nat.le_trans hle hcount, rfl⟩

/-- Names without underscores are made different. -/
theorem nodup_numbered {names : List String} (h : ∀ name ∈ names, '_' ∉ name.toList)
    (before : List String) :
  (numbered before names).Nodup
  := by
  induction names generalizing before with
  | nil => apply List.nodup_nil
  | cons name names ih =>
    obtain ⟨hname, hothers⟩ := List.forall_mem_cons.1 h
    rw [numbered_cons, List.nodup_cons]
    refine ⟨fun hmem => ?_, ih hothers _⟩
    obtain ⟨name', hname', count, hcount, heq⟩ := eq_label_of_mem_numbered hmem
    obtain ⟨rfl, rfl⟩ := label_inj hname (hothers _ hname') heq
    rw [List.count_cons_self] at hcount
    omega

/-- A name and the number of the field among those of the name, counted from 1, make the name of
its column. -/
theorem getElem?_columnNames {f : Format} {i : Nat} {field : Field}
    (h : f.fields[i]? = some field) :
  let number := (f.fields.take (i + 1)).countP (·.name == field.name)
  f.columnNames[i]?
    = some (if number = 1 then field.name else field.name ++ "_" ++ toString number)
  := by
  obtain ⟨hi, rfl⟩ := List.getElem?_eq_some_iff.1 h
  intro number
  have hnumber : number = ((f.fields.map (·.name)).take i).count f.fields[i].name + 1 := by
    simp only [number, List.take_add_one, h, Option.toList_some, List.countP_append,
      List.countP_singleton, beq_self_eq_true, if_true, ← List.map_take, List.count,
      List.countP_map]
    rfl
  rw [columnNames, getElem?_numbered, List.getElem?_map, h, hnumber, Option.map_some,
    Option.map_some, List.count_nil, Nat.zero_add]
  simp only [label, Nat.add_eq_right]
  rfl

/-- The columns of a compiled format have different names. -/
theorem nodup_columnNames {reader : TimeReader} {text : String} {f : Format}
    (h : compile reader text = .ok f) :
  f.columnNames.Nodup
  := by
  obtain ⟨resolved, hresolves, rfl⟩ := compile_eq_ok_iff.1 h
  apply nodup_numbered
  intro name hname
  obtain ⟨field, hfield, rfl⟩ := List.mem_map.1 hname
  obtain ⟨r, hr, hfield⟩ := List.mem_filterMap.1 hfield
  obtain ⟨d, hd⟩ := (hresolves.sound r hr).makes hfield
  apply hd.underscore_not_mem

end Format

end LogFormat
