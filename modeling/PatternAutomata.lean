import PatternAutomata.Compilation
import PatternAutomata.Dfa.Printer
import PatternAutomata.Pattern.Grammar
import PatternAutomata.Proofs.Constructions
import PatternAutomata.Proofs.Dfa.Building
import PatternAutomata.Proofs.Dfa.Classes
import PatternAutomata.Proofs.Dfa.Rounds
import PatternAutomata.Proofs.Dfa.TableMinimization
import PatternAutomata.Proofs.Dfa.Trim
import PatternAutomata.Proofs.Dfa.UniqueText
import PatternAutomata.Proofs.EarlyRejection
import PatternAutomata.Proofs.Expansion
import PatternAutomata.Proofs.FiniteSets
import PatternAutomata.Proofs.Nfa.Dangling
import PatternAutomata.Proofs.Nfa.Fragments
import PatternAutomata.Proofs.Nfa.Simulation
import PatternAutomata.Proofs.Pattern.Pairing
import PatternAutomata.Proofs.Pattern.Respelling
import PatternAutomata.Proofs.Regex.FollowTable
import PatternAutomata.Proofs.Regex.PostOrder
import PatternAutomata.Proofs.Regex.Printer
import PatternAutomata.Proofs.Verdict
