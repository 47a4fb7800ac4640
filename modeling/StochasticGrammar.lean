import StochasticGrammar.Binary64.Basic
import StochasticGrammar.Grammar
import StochasticGrammar.Proofs.CompositeForm
import StochasticGrammar.Proofs.OperandText
import StochasticGrammar.Proofs.RuleReading
import StochasticGrammar.Proofs.RegistryInstall
import StochasticGrammar.Proofs.BuildGrowth
import StochasticGrammar.Proofs.BuildRun
import StochasticGrammar.Proofs.CheckedBuild
import StochasticGrammar.Proofs.CompileAtomic
import StochasticGrammar.Proofs.Session
import StochasticGrammar.Proofs.ReferenceWiring
import StochasticGrammar.Proofs.LeadingNames
import StochasticGrammar.Proofs.DirectExpansion
import StochasticGrammar.Proofs.ExpansionRefinement
import StochasticGrammar.Proofs.NodeMeaning
import StochasticGrammar.Proofs.ExpansionAgreement
import StochasticGrammar.Proofs.AmountRounding
import StochasticGrammar.Proofs.ExpansionSuccess
import StochasticGrammar.Proofs.ReachableNodes
import StochasticGrammar.Proofs.RecursionOrder
import StochasticGrammar.Proofs.SoundNodes
import StochasticGrammar.Proofs.ValidExpansion
import StochasticGrammar.Proofs.RegistryClosure
import StochasticGrammar.Proofs.ResolvableReferences
import StochasticGrammar.Proofs.CompileAcceptance
import StochasticGrammar.Proofs.DocumentedFaults
import StochasticGrammar.Proofs.RuleTables
import StochasticGrammar.Proofs.SettingsInput
import StochasticGrammar.Proofs.DefinitionInput
import StochasticGrammar.Proofs.DeclaredNames
import StochasticGrammar.Proofs.TableOrder
import StochasticGrammar.Proofs.ReportedCycles
import StochasticGrammar.Proofs.OperandExchange
import StochasticGrammar.Proofs.CompilationReport
import StochasticGrammar.Proofs.PolicyQuestions
import StochasticGrammar.Proofs.WeightedChoice
import StochasticGrammar.Proofs.ReportedParts
import StochasticGrammar.Proofs.OperandFactorisation
import StochasticGrammar.Proofs.OperatorPriority
import StochasticGrammar.Proofs.NestingDepth
import StochasticGrammar.Proofs.RoundingOrder
import StochasticGrammar.Proofs.ChoiceOrder
import StochasticGrammar.Proofs.ScaledDraw
import StochasticGrammar.Proofs.RemainingDepth
import StochasticGrammar.Proofs.ExactValue
import StochasticGrammar.Proofs.HalfRounding
import StochasticGrammar.Proofs.FixedRepetition
import StochasticGrammar.Proofs.ExpectedRepetition
import StochasticGrammar.Proofs.NearestDouble
import StochasticGrammar.Proofs.DecimalRounding
import StochasticGrammar.Proofs.NumeralText
import StochasticGrammar.Proofs.NumberReading
