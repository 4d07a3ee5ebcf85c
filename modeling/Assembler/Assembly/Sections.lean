import Assembler.Assembly.Equate
/-!
Sections and location counters: CSECT, DSECT, RSECT, COM and LOCTR.
-/

namespace Assembler.Assembly

/-- Defines the name of a section or of a location counter. -/
def definePlace (s : Assembly) (name : Name) (place : Address) (origin : SymbolOrigin)
    (location : Location) : Assembly :=
  s.createSymbol
    { name, value? := some (.relocatable place), attributes := .label origin 'J' 1, location }

/-- Starts the private section of a kind, or goes back to it. -/
def processPrivateSection (s : Assembly) (kind : SectionKind) : Assembly :=
  match s.layout.privateSection? kind with
  | some sect => s.mapLayout (·.resumeSection sect)
  | none => s.mapLayout fun l => (l.createSection none kind).2

/-- Starts a section, or goes back to the one of that name if it has the same kind. -/
def processNamedSection (s : Assembly) (name : Name) (kind : SectionKind) (location : Location) :
    Assembly :=
  match s.layout.findSection? name with
  | some sect =>
    if (s.layout.section? sect).map (·.kind) = some kind then s.mapLayout (·.resumeSection sect)
    else s.report (.redefinition "section") location
  | none =>
    if s.symbols.contains name then s.report (.redefinition "section") location
    else
      let (sect, layout) := s.layout.createSection (some name) kind
      { s with layout }.definePlace name (.start sect) .sectionStart location

/-- Carries out CSECT, DSECT, RSECT or COM. -/
def processSection (s : Assembly) (st : Statement) (kind : SectionKind) : Assembly :=
  match st.label? with
  | none => s.processPrivateSection kind
  | some name => s.processNamedSection name kind st.location

/-- Carries out LOCTR: goes back to the counter of that name, or adds one to the section in use. -/
def processCounter (s : Assembly) (st : Statement) : Assembly :=
  match st.label? with
  | none => s.report .unevaluable st.location
  | some name =>
    match s.layout.findCounter? name with
    | some c => s.mapLayout (·.resumeCounter c)
    | none =>
      if s.symbols.contains name then s.report (.redefinition "location counter") st.location
      else
        let s := s.mapLayout fun l => (l.createCounter name).2
        s.definePlace name s.layout.origin .counterStart st.location

end Assembler.Assembly
