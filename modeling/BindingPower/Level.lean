/-! Binding powers are integers; the ladder names the ranks that grammars use. -/
namespace BindingPower.Level

/-- The lowest threshold of a whole expression. -/
def root : Int := 0

def first : Int := 5
def second : Int := 10
def third : Int := 15
def fourth : Int := 20
def fifth : Int := 25
def sixth : Int := 30
def seventh : Int := 35
def eighth : Int := 40
def ninth : Int := 45
def tenth : Int := 50
def eleventh : Int := 55
def twelfth : Int := 60
def thirteenth : Int := 65
def highest : Int := 100

/-- The named ranks, loosest first. -/
def ladder : List (String × Int) := [
  ("ROOT", root), ("FIRST", first), ("SECOND", second), ("THIRD", third), ("FOURTH", fourth),
  ("FIFTH", fifth), ("SIXTH", sixth), ("SEVENTH", seventh), ("EIGHTH", eighth), ("NINTH", ninth),
  ("TENTH", tenth), ("ELEVENTH", eleventh), ("TWELFTH", twelfth), ("THIRTEENTH", thirteenth),
  ("HIGHEST", highest)]

/-- The name of a power that is a rank of the ladder. -/
def name? (power : Int) : Option String := (ladder.find? (·.2 == power)).map (·.1)

def toText (power : Int) : String := "(Precedence: " ++ toString power ++ ")"

end BindingPower.Level
